import Mathlib.Data.List.Nodup
import Restyle.Proofs.Storage.Grown

/-!
# Discovered files

A search lists the paths of the files in a folder.  Names in a folder are ordinary names, and no
link is followed below the folder, so each path goes down from the folder through the names of which
it was put together, and no file is listed twice.

* `Entry.isSound`: every folder holds ordinary names, each once.  A `SoundStore` is a store of such
  folders.
* `Entry.fileRoutes`: the routes of all files in an entry; `Entry.sheets_eq` finds the paths of the
  sheets among them.
* `Store.discover_of_isFolder`: a folder is searched, whether a link leads to it or not.
* `Store.resolve_joinAll`: a path that was put together below a folder goes on from where the folder
  stands.
-/

namespace Restyle

namespace Entry

mutual

/-- Every folder in the entry holds ordinary names, each once. -/
def isSound : Entry → Bool
  | .folder listing => isSoundAll listing
  | _               => true

/-- The listing has ordinary names, each once, and so has every folder in it. -/
def isSoundAll : List (String × Entry) → Bool
  | []                    => true
  | (name, entry) :: rest =>
    Path.isName name && (rest.lookup name).isNone && entry.isSound && isSoundAll rest

end

mutual

/-- The routes of the files in an entry, in the order of the listings. -/
def fileRoutes : Entry → List (List String)
  | .file _         => [[]]
  | .link _         => []
  | .folder listing => fileRoutesAll listing

/-- The routes of the files in a folder, in the order of the listings. -/
def fileRoutesAll : List (String × Entry) → List (List String)
  | []                    => []
  | (name, entry) :: rest => entry.fileRoutes.map (name :: ·) ++ fileRoutesAll rest

end

/-! ### Names in a sound entry -/

/-- What stands at a name of a sound folder is sound, and the name is an ordinary one. -/
theorem isSound_of_lookup {listing : List (String × Entry)} {name : String} {entry : Entry}
    (hs : isSoundAll listing = true) (hl : listing.lookup name = some entry) :
    Path.isName name = true ∧ entry.isSound = true := by
  induction listing with
  | nil => cases hl
  | cons first rest ih =>
      obtain ⟨other, old⟩ := first
      simp only [isSoundAll, Bool.and_eq_true] at hs
      rw [List.lookup_cons] at hl
      split at hl
      · next he =>
          cases hl
          rw [LawfulBEq.eq_of_beq he]
          exact ⟨hs.1.1.1, hs.1.2⟩
      · exact ih hs.2 hl

/-- A route in a sound entry leads through ordinary names, and to a sound entry. -/
theorem isSound_of_get? {entry found : Entry} {route : List String} (hs : entry.isSound = true)
    (hg : entry.get? route = some found) :
    (∀ name ∈ route, Path.isName name = true) ∧ found.isSound = true := by
  induction route generalizing entry with
  | nil =>
      rw [get?_nil] at hg
      cases hg
      exact ⟨nofun, hs⟩
  | cons name rest ih =>
      cases entry with
      | file | link => cases hg
      | folder listing =>
          rw [get?_folder_cons] at hg
          obtain ⟨inner, hl, hinner⟩ := Option.bind_eq_some_iff.1 hg
          rw [isSound] at hs
          obtain ⟨hname, hsound⟩ := isSound_of_lookup hs hl
          obtain ⟨hrest, hfound⟩ := ih hsound hinner
          exact ⟨List.forall_mem_cons.2 ⟨hname, hrest⟩, hfound⟩

/-! ### Files by their routes -/

/-- A folder without its first name leads to the same entries at its other names. -/
theorem get?_folder_cons_of_lookup {name : String} (entry : Entry)
    {rest : List (String × Entry)} (hn : rest.lookup name = none) {route : List String}
    {bytes : ByteArray} (hg : (Entry.folder rest).get? route = some (.file bytes)) :
    (Entry.folder ((name, entry) :: rest)).get? route = some (.file bytes) ∧
      ∀ route', route ≠ name :: route' := by
  cases route with
  | nil => cases hg
  | cons other route' =>
      have hne : other ≠ name := by
        rintro rfl
        rw [get?_folder_cons, hn] at hg
        cases hg
      refine ⟨?_, fun _ h => hne (List.cons.inj h).1⟩
      rw [get?_folder_cons, List.lookup_cons, beq_false_of_ne hne, ← get?_folder_cons]
      exact hg

mutual

/-- Files stand at the routes of files, and each route is listed once. -/
theorem fileRoutes_spec : ∀ (entry : Entry), entry.isSound = true →
    entry.fileRoutes.Nodup ∧ ∀ route ∈ entry.fileRoutes, ∃ bytes, entry.get? route = some (.file bytes)
  | .file bytes, _ => ⟨List.nodup_singleton _, fun route h => ⟨bytes, by
      rw [List.mem_singleton.1 h, get?_nil]⟩⟩
  | .link _, _ => ⟨List.nodup_nil, nofun⟩
  | .folder listing, hs => fileRoutesAll_spec listing hs

theorem fileRoutesAll_spec : ∀ (listing : List (String × Entry)), isSoundAll listing = true →
    (fileRoutesAll listing).Nodup ∧
      ∀ route ∈ fileRoutesAll listing, ∃ bytes, (Entry.folder listing).get? route = some (.file bytes)
  | [], _ => ⟨List.nodup_nil, nofun⟩
  | (name, entry) :: rest, hs => by
      simp only [isSoundAll, Bool.and_eq_true, Option.isNone_iff_eq_none] at hs
      obtain ⟨hnodup, hfiles⟩ := fileRoutes_spec entry hs.1.2
      obtain ⟨hnodups, hrest⟩ := fileRoutesAll_spec rest hs.2
      rw [fileRoutesAll]
      constructor
      · refine List.Nodup.append (hnodup.map fun _ _ h => (List.cons.inj h).2) hnodups ?_
        rintro route hm hr
        obtain ⟨route', -, rfl⟩ := List.mem_map.1 hm
        obtain ⟨bytes, hg⟩ := hrest _ hr
        exact (get?_folder_cons_of_lookup entry hs.1.1.2 hg).2 route' rfl
      · intro route h
        rcases List.mem_append.1 h with hm | hr
        · obtain ⟨route', hroute, rfl⟩ := List.mem_map.1 hm
          obtain ⟨bytes, hg⟩ := hfiles route' hroute
          refine ⟨bytes, ?_⟩
          rw [get?_folder_cons, List.lookup_cons_self]
          exact hg
        · obtain ⟨bytes, hg⟩ := hrest _ hr
          exact ⟨bytes, (get?_folder_cons_of_lookup entry hs.1.1.2 hg).1⟩

end

mutual

/-- The sheets are the files whose paths have the name of a sheet. -/
theorem sheets_eq (path : String) : ∀ entry : Entry,
    entry.sheets path =
      (entry.fileRoutes.map (Path.joinAll path)).filter (Path.isSheetName <| Path.fileName ·)
  | .file _ => by
      rw [sheets, fileRoutes, List.map_singleton, List.filter_cons, List.filter_nil]
      rfl
  | .link _ => rfl
  | .folder listing => by
      rw [sheets, fileRoutes]
      exact sheetsAll_eq path listing

theorem sheetsAll_eq (dir : String) : ∀ listing : List (String × Entry),
    sheetsAll dir listing =
      ((fileRoutesAll listing).map (Path.joinAll dir)).filter (Path.isSheetName <| Path.fileName ·)
  | [] => rfl
  | (name, entry) :: rest => by
      rw [sheetsAll, fileRoutesAll, List.map_append, List.filter_append, List.map_map,
        sheetsAll_eq dir rest, sheets_eq (Path.join dir name) entry]
      rfl

end

end Entry

/-- A store in which every folder holds ordinary names, each once. -/
structure SoundStore extends Store where
  sound : root.isSound = true

instance : Coe SoundStore Store := ⟨SoundStore.toStore⟩

/-- A route in a sound store leads through ordinary names, and to a sound entry. -/
theorem SoundStore.isSound_of_get? {store : SoundStore} {found : Entry} {route : List String}
    (h : store.root.get? route = some found) :
    (∀ name ∈ route, Path.isName name = true) ∧ found.isSound = true :=
  Entry.isSound_of_get? store.sound h

namespace Store

/-! ### The folder that is searched -/

theorem exists_of_isFolder {store : Store} {dir : String} (h : store.isFolder dir = true) :
    ∃ route listing, store.resolve .follow dir = .ok ⟨route, some (.folder listing)⟩ := by
  rw [isFolder, lookup] at h
  rcases hr : store.resolve .follow dir with fault | ⟨route, _ | entry⟩
  · simp [hr] at h
  · simp [hr] at h
  · cases entry with
    | file | link => simp [hr] at h
    | folder listing => exact ⟨route, listing, rfl⟩

/-- A folder is searched, whether a link leads to it or not. -/
theorem discover_of_isFolder {store : Store} {dir : String} {route : List String}
    {listing : List (String × Entry)}
    (h : store.resolve .follow dir = .ok ⟨route, some (.folder listing)⟩) :
    store.discover dir = (Entry.folder listing).search dir := by
  have hfollow : store.lookup .follow dir = .ok (.folder listing) := by rw [lookup, h]
  have hfound : (ofExcept ((Entry.folder listing).search dir) : Except SearchError _) =
      (Entry.folder listing).search dir := by
    cases (Entry.folder listing).search dir <;> rfl
  have hinspect : (∃ other target, store.resolve .inspect dir = .ok ⟨other, some (.link target)⟩) ∨
      store.resolve .inspect dir = store.resolve .follow dir := by
    rw [resolve, resolve]
    split
    · exact .inr rfl
    · exact walk_inspect store maxLinks _ _
  rcases hinspect with ⟨other, target, hl⟩ | he
  · have hlink : store.lookup .inspect dir = .ok (.link target) := by rw [lookup, hl]
    rw [discover, Entry.discover, hlink, hfollow]
    exact hfound
  · have hsame : store.lookup .inspect dir = .ok (.folder listing) := by rw [lookup, he, h]
    rw [discover, Entry.discover, hsame]
    exact hfound

/-- A path that was put together below a folder goes on from where the folder stands. -/
theorem resolve_joinAll {store : Store} {dir : String} {here : List String}
    {listing : List (String × Entry)}
    (h : store.resolve .follow dir = .ok ⟨here, some (.folder listing)⟩) :
    ∃ left, ∀ access route name, (∀ name ∈ route, Path.isPlain name = true) →
      Path.isPlain name = true →
      store.resolve access (Path.joinAll dir (route ++ [name])) =
        if Path.isLong (Path.joinAll dir (route ++ [name])) then .error .tooLong
        else store.walk access left here (route ++ [name]) := by
  rw [resolve] at h
  split at h
  · cases h
  next hd =>
    have hbase : store.walk .follow maxLinks (start store.current dir) (Path.base dir) =
        .ok ⟨here, some (.folder listing)⟩ := by
      rcases Path.names_eq_base_or dir with hn | hn
      · rwa [hn] at h
      · rw [hn] at h
        exact walk_of_closing _ _ _ h
    obtain ⟨left, hleft⟩ := walk_append _ _ _ hbase
    refine ⟨left, fun access route name hr hp => ?_⟩
    have hall : ∀ other ∈ route ++ [name], Path.isPlain other = true := by
      simpa [or_imp, forall_and] using ⟨hr, hp⟩
    rw [resolve, Path.ofPath?_joinAll hd hall]
    by_cases hlong : Path.isLong (Path.joinAll dir (route ++ [name])) = true
    · rw [if_pos hlong, if_pos hlong]
    rw [if_neg hlong, if_neg hlong, Path.names_joinAll dir hr hp, start,
      Path.isAbsolute_joinAll (Path.ofPath?_eq_none_iff.1 hd).2.2 hall, ← start, List.append_assoc]
    refine hleft access (route ++ [name]) (by simp) fun he => ?_
    -- an ordinary name is not the empty one of a slash at the end
    have hlast : name = "" := by simpa using congrArg List.getLast? he
    exact Path.ne_empty_of_isPlain hp hlast

end Store

end Restyle
