import Restyle.Proofs.Storage.Discover

/-!
# Spots

A discovered file has a spot in the store: its folder, its name, and the path that leads there.  Its
backup stands beside it under a name that no sheet has.

* `Store.Leads path route`: the path leads to the route, whatever it is opened for, unless it is
  refused.
* `Spot.In`: what holds of a discovered file and of its backup.
* `Store.exists_spots`: **the discovered files have spots in the store**, with different paths and at
  different routes.
* `Spot.route_ne_spare`: no file is another one's backup.
-/

namespace Restyle

namespace Path

/-! ### Names of backups -/

theorem isPlain_backup {name : String} (h : isPlain name = true) : isPlain (backup name) = true := by
  have hslash := slash_notMem_of_isPlain h
  have hnul := nul_notMem_of_isPlain h
  have hlong (short : String) (hs : short.toList.length < 4) : backup name ≠ short := by
    intro he
    have := congrArg (·.toList.length) he
    simp [backup] at this
    omega
  simp [isPlain, hlong "" (by decide), hlong "." (by decide), hlong ".." (by decide)]
  simp [backup, hslash, hnul]

theorem backup_injective : Function.Injective backup := by
  intro a b h
  have : a.toList ++ ".bak".toList = b.toList ++ ".bak".toList := by
    simpa [backup] using congrArg String.toList h
  exact String.toList_injective (List.append_cancel_right this)

/-- No sheet has the name of a backup. -/
theorem isSheetName_backup (name : String) : isSheetName (backup name) = false := by
  rw [isSheetName, Bool.and_eq_false_iff]
  refine .inl (Bool.eq_false_iff.2 fun h => ?_)
  obtain ⟨front, hf⟩ := List.isSuffixOf_iff_suffix.1 h
  have hs : extension.getLast? = some 's' := by decide
  have hk : ".bak".toList.getLast? = some 'k' := by decide
  have hlast := congrArg List.getLast? hf
  rw [backup, String.toList_append, List.getLast?_append, List.getLast?_append, hs, hk] at hlast
  exact absurd (Option.some.inj hlast) (by decide)

end Path

/-! ### Paths to files -/

/-- The path leads to the route, whatever it is opened for, unless it is refused. -/
def Store.Leads (store : Store) (path : String) (route : List String) : Prop :=
  (∀ access, store.route? access path = none) ∨ ∀ access, store.route? access path = some route

/-- A path that leads anywhere leads to its route. -/
theorem Store.Leads.eq {store : Store} {path : String} {route other : List String} {access : Access}
    (h : store.Leads path route) (ho : store.route? access path = some other) :
    other = route ∧ ∀ access, store.route? access path = some route := by
  rcases h with h | h
  · rw [h] at ho
    cases ho
  · rw [h] at ho
    exact ⟨(Option.some.inj ho).symm, h⟩

theorem Grown.leads {s t : Store} (h : Grown s t) {path : String} {route : List String}
    (hl : s.Leads path route) : t.Leads path route := by
  simpa only [Store.Leads, h.route?] using hl

/-- A path that was put together below a folder leads to the name at its end, if no link stands
there. -/
theorem Store.leads_joinAll {store : Store} {dir : String} {here route : List String}
    {listing : List (String × Entry)} {name : String}
    (hd : store.resolve .follow dir = .ok ⟨here, some (.folder listing)⟩)
    (hr : ∀ name ∈ route, Path.isName name = true) (hp : Path.isPlain name = true)
    (hf : store.stat (here ++ route) = some .folder) :
    store.Leads (Path.joinAll dir (route ++ [name])) (here ++ route ++ [name]) ∨
      ∃ target, store.stat (here ++ route ++ [name]) = some (.link target) ∧
        store.lookup .inspect (Path.joinAll dir (route ++ [name])) = .ok (.link target) := by
  obtain ⟨left, hleft⟩ := resolve_joinAll hd
  have hres (access : Access) :
      store.resolve access (Path.joinAll dir (route ++ [name])) =
        if Path.isLong (Path.joinAll dir (route ++ [name])) then .error .tooLong
        else store.walk access left (here ++ route) [name] := by
    rw [hleft access route name (fun other h => Path.isPlain_of_isName (hr other h)) hp,
      walk_down (by simp) (by simpa using Path.ne_empty_of_isPlain hp) here route hr hf]
  by_cases hlong : Path.isLong (Path.joinAll dir (route ++ [name])) = true
  · refine .inl (.inl fun access => ?_)
    rw [route?, hres, if_pos hlong]
    rfl
  simp only [if_neg hlong] at hres
  by_cases hlongName : Path.isLongName name = true
  · refine .inl (.inl fun access => ?_)
    rw [route?, hres, walk_cons_of_not_closing _ (by simp), turn_of_isPlain hf hp, if_pos hlongName]
    rfl
  by_cases hlink : ∃ target, store.stat (here ++ route ++ [name]) = some (.link target)
  · obtain ⟨target, ht⟩ := hlink
    refine .inr ⟨target, ht, ?_⟩
    rw [lookup, hres, walk_cons_of_not_closing _ (by simp), turn_of_isPlain hf hp,
      if_neg hlongName, ht]
    rfl
  · refine .inl (.inr fun access => ?_)
    rw [route?, hres, walk_name hf hp (fun target ht => hlink ⟨target, ht⟩), if_neg hlongName]
    rfl

/-! ### Spots -/

/-- A file by the path under which it was discovered, the route of its folder and its name. -/
structure Spot where
  path : String
  parent : List String
  name : String

namespace Spot

/-- The route of the file. -/
def route (spot : Spot) : List String := spot.parent ++ [spot.name]

/-- The route of its backup. -/
def spare (spot : Spot) : List String := spot.parent ++ [Path.backup spot.name]

/-- A sheet stands at the spot.  The path leads to it, and its backup is beside it or some link. -/
structure In (spot : Spot) (store : Store) : Prop where
  folder : store.stat spot.parent = some .folder
  isFile : (store.stat spot.route).any Stat.isFile = true
  isSheetName : Path.isSheetName spot.name = true
  leads : store.Leads spot.path spot.route
  backup : store.Leads (Path.backup spot.path) spot.spare ∨
    ∃ target, store.lookup .inspect (Path.backup spot.path) = .ok (.link target)

/-- Sheets keep their spots when files are written. -/
theorem In.grown {spot : Spot} {s t : Store} (h : spot.In s) (hg : Grown s t) : spot.In t where
  folder := hg.stat_folder_iff.2 h.folder
  isFile := hg.any_isFile h.isFile
  isSheetName := h.isSheetName
  leads := hg.leads h.leads
  backup := by
    rcases h.backup with hl | ⟨target, ht⟩
    · exact .inl (hg.leads hl)
    · exact .inr ⟨target, hg.lookup_link_iff.2 ht⟩

/-- No file is another one's backup. -/
theorem route_ne_spare {a b : Spot} {store : Store} (h : a.In store) : a.route ≠ b.spare := by
  intro he
  obtain ⟨-, hn⟩ : a.parent = b.parent ∧ a.name = Path.backup b.name := by
    simpa [route, spare] using he
  have hsheet := h.isSheetName
  rw [hn, Path.isSheetName_backup] at hsheet
  cases hsheet

/-- Different files have different backups. -/
theorem route_eq_of_spare_eq {a b : Spot} (h : a.spare = b.spare) : a.route = b.route := by
  obtain ⟨hparent, hname⟩ : a.parent = b.parent ∧ Path.backup a.name = Path.backup b.name := by
    simpa [spare] using h
  rw [route, route, hparent, Path.backup_injective hname]

/-- The spot of the file to which a route leads from the folder at `dir`, whose own route is
`here`. -/
def below (dir : String) (here route : List String) : Spot :=
  ⟨Path.joinAll dir route, here ++ route.dropLast, route.getLastD ""⟩

theorem below_snoc (dir : String) (here route : List String) (name : String) :
    below dir here (route ++ [name]) = ⟨Path.joinAll dir (route ++ [name]), here ++ route, name⟩ := by
  simp [below]

/-- A sheet in a folder has its spot there. -/
theorem in_below {store : SoundStore} {dir : String} {here route : List String}
    {listing : List (String × Entry)} {name : String} {bytes : ByteArray}
    (hd : store.resolve .follow dir = .ok ⟨here, some (.folder listing)⟩)
    (hg : (Entry.folder listing).get? (route ++ [name]) = some (.file bytes))
    (hn : Path.isSheetName (Path.fileName (Path.joinAll dir (route ++ [name]))) = true) :
    (below dir here (route ++ [name])).In store := by
  have hhere : store.root.get? here = some (.folder listing) := (Store.resolve_entry hd).symm
  have hfile : store.root.get? (here ++ (route ++ [name])) = some (.file bytes) := by
    rw [Entry.get?_append, hhere]
    exact hg
  have hstat : store.stat (here ++ route ++ [name]) = some (.file bytes) := by
    rw [List.append_assoc, Store.stat, hfile]
    rfl
  have hfolder : store.stat (here ++ route) = some .folder :=
    Store.stat_folder_of_cons (by rw [hstat]; exact Option.some_ne_none _)
  have hnames := (SoundStore.isSound_of_get? hfile).1
  have hr : ∀ other ∈ route, Path.isName other = true := fun other h => hnames other (by simp [h])
  have hp : Path.isPlain name = true := Path.isPlain_of_isName (hnames name (by simp))
  rw [below_snoc]
  constructor
  case folder => exact hfolder
  case isFile => rw [Spot.route, hstat]; rfl
  case isSheetName => rwa [Path.joinAll_snoc, Path.fileName_join _ hp] at hn
  case leads =>
    rcases Store.leads_joinAll hd hr hp hfolder with hl | ⟨target, ht, -⟩
    · exact hl
    · rw [hstat] at ht
      cases ht
  case backup =>
    rw [Path.backup_joinAll]
    rcases Store.leads_joinAll hd hr (Path.isPlain_backup hp) hfolder with hl | ⟨target, -, ht⟩
    · exact .inl hl
    · exact .inr ⟨target, ht⟩

end Spot

/-- **The discovered files have spots in the store**, with different paths and at different routes. -/
theorem Store.exists_spots {store : SoundStore} {dir : String} {files : List String}
    (hd : store.isFolder dir = true) (hf : store.discover dir = .ok files) :
    ∃ spots : List Spot, files = spots.map (·.path) ∧ files.Nodup ∧ (spots.map (·.route)).Nodup ∧
      ∀ spot ∈ spots, spot.In store := by
  obtain ⟨here, listing, hres⟩ := exists_of_isFolder hd
  have hsound := (SoundStore.isSound_of_get? (resolve_entry hres).symm).2
  obtain ⟨hnodup, hfiles⟩ := Entry.fileRoutes_spec (.folder listing) hsound
  rw [discover_of_isFolder hres, Entry.search] at hf
  split at hf
  · cases hf
  cases hf
  let sheets := (Entry.folder listing).fileRoutes.filter
    ((Path.isSheetName <| Path.fileName ·) ∘ Path.joinAll dir)
  have hsheet (route : List String) (h : route ∈ sheets) :
      ∃ init name, route = init ++ [name] ∧ (Spot.below dir here route).In store := by
    obtain ⟨hmem, hn⟩ := List.mem_filter.1 h
    obtain ⟨bytes, hg⟩ := hfiles route hmem
    rcases List.eq_nil_or_concat route with rfl | ⟨init, name, rfl⟩
    · cases hg
    rw [List.concat_eq_append] at hg hn ⊢
    rw [Function.comp_apply] at hn
    exact ⟨init, name, rfl, Spot.in_below hres hg hn⟩
  have hpaths : (Entry.folder listing).sheets dir = sheets.map (Path.joinAll dir) := by
    rw [Entry.sheets_eq, List.filter_map]
  have hplain (route : List String) (h : route ∈ sheets) :
      ∀ name ∈ route, Path.isPlain name = true := by
    obtain ⟨bytes, hg⟩ := hfiles route (List.mem_filter.1 h).1
    exact fun name hm => Path.isPlain_of_isName ((Entry.isSound_of_get? hsound hg).1 name hm)
  refine ⟨sheets.map (Spot.below dir here), ?_, ?_, ?_, ?_⟩
  · rw [hpaths, List.map_map]
    rfl
  · rw [hpaths]
    refine (hnodup.filter _).map_on fun a ha b hb he => ?_
    have hbase := congrArg Path.base he
    rw [Path.base_joinAll dir (hplain a ha), Path.base_joinAll dir (hplain b hb)] at hbase
    exact List.append_cancel_left hbase
  · rw [List.map_map]
    refine (hnodup.filter _).map_on fun a ha b hb he => ?_
    obtain ⟨init, name, rfl, -⟩ := hsheet a ha
    obtain ⟨init', name', rfl, -⟩ := hsheet b hb
    rw [Function.comp_apply, Function.comp_apply, Spot.below_snoc, Spot.below_snoc, Spot.route,
      Spot.route, List.append_assoc, List.append_assoc] at he
    exact List.append_cancel_left he
  · intro spot h
    obtain ⟨route, hr, rfl⟩ := List.mem_map.1 h
    obtain ⟨-, -, -, hin⟩ := hsheet route hr
    exact hin

end Restyle
