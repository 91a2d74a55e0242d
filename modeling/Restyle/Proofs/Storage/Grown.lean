import Restyle.Proofs.Storage.Walk

/-!
# Stores that grow

A run writes files and does nothing else to a store: folders and links stay where they are.  So
every path leads where it led before, and reading and writing through paths is reading and writing
at fixed routes.

* `Store.route? access path`: the route to which a path leads.
* `Store.lookup_eq_ok_iff`: what stands at a path is what stands at its route.
* `Store.read_eq_ok_iff`, `Store.write_eq_ok_iff`: files are read and written at their routes.
* `Grown s t`: the second store is the first with files added or overwritten.
* `Grown.route?`: **a path leads to the same route in a grown store.**
* `Store.write_file`: writing a file changes what stands at its route, and nothing else.
-/

namespace Restyle

/-- A file stands there. -/
def Stat.isFile : Stat → Bool
  | .file _ => true
  | _       => false

namespace Store

/-- The route to which a path leads.  There may be nothing at its end. -/
def route? (store : Store) (access : Access) (path : String) : Option (List String) :=
  (store.resolve access path).toOption.map (·.route)

theorem resolve_entry {store : Store} {access : Access} {path : String} {place : Place}
    (h : store.resolve access path = .ok place) :
    place.entry? = store.root.get? place.route := by
  rw [resolve] at h
  split at h
  · cases h
  · exact walk_entry _ _ _ h

/-- A path leads to a route together with what stands there. -/
theorem route?_eq_some_iff {store : Store} {access : Access} {path : String} {route : List String} :
    store.route? access path = some route ↔
      store.resolve access path = .ok ⟨route, store.root.get? route⟩ := by
  rw [route?]
  cases h : store.resolve access path with
  | error fault => simp [Except.toOption]
  | ok place =>
      obtain ⟨other, entry?⟩ := place
      have he : entry? = store.root.get? other := resolve_entry h
      subst he
      constructor
      · rintro ⟨⟩
        rfl
      · intro h
        injection h with h
        injection h with hr
        exact congrArg some hr

theorem exists_error_of_route? {store : Store} {access : Access} {path : String}
    (h : store.route? access path = none) : ∃ fault, store.resolve access path = .error fault := by
  rw [route?] at h
  cases hr : store.resolve access path with
  | error fault => exact ⟨fault, rfl⟩
  | ok place => simp [hr, Except.toOption] at h

/-- What stands at a path is what stands at the route to which it leads. -/
theorem lookup_eq_ok_iff {store : Store} {access : Access} {path : String} {entry : Entry} :
    store.lookup access path = .ok entry ↔
      ∃ route, store.route? access path = some route ∧ store.root.get? route = some entry := by
  rw [lookup]
  cases hr : store.route? access path with
  | none =>
      obtain ⟨fault, hf⟩ := exists_error_of_route? hr
      simp [hf]
  | some route =>
      rw [route?_eq_some_iff.1 hr]
      cases hg : store.root.get? route with
      | none => simp [hg]
      | some found => simp [hg]

/-- A link stands at the end of a path. -/
theorem lookup_eq_link_iff {store : Store} {access : Access} {path target : String} :
    store.lookup access path = .ok (.link target) ↔
      ∃ route, store.route? access path = some route ∧
        store.stat route = some (.link target) := by
  simp only [lookup_eq_ok_iff, stat_eq_link_iff]

/-- Files are read at the routes to which their paths lead. -/
theorem read_eq_ok_iff {store : Store} {path : String} {bytes : ByteArray} :
    store.read path = .ok bytes ↔
      ∃ route, store.route? .follow path = some route ∧
        store.stat route = some (.file bytes) := by
  have hread : store.read path = .ok bytes ↔ store.lookup .follow path = .ok (.file bytes) := by
    rw [read]
    cases store.lookup .follow path with
    | error fault => simp
    | ok entry => cases entry <;> simp
  simp only [hread, lookup_eq_ok_iff, stat_eq_file_iff]

/-- Files are written at the routes to which their paths lead. -/
theorem write_eq_ok_iff {store after : Store} {path : String} {bytes : ByteArray} :
    store.write path bytes = .ok after ↔
      ∃ route, store.route? .create path = some route ∧ store.stat route ≠ some .folder ∧
        after = store.put route (.file bytes) := by
  rw [write]
  cases hr : store.route? .create path with
  | none =>
      obtain ⟨fault, hf⟩ := exists_error_of_route? hr
      simp [hf]
  | some route =>
      rw [route?_eq_some_iff.1 hr]
      cases hg : store.root.get? route with
      | none => simp [stat, hg, eq_comm]
      | some entry => cases entry <;> simp [stat, hg, Entry.stat, eq_comm]

end Store

/-- The store `t` is `s` with files added or overwritten. -/
structure Grown (s t : Store) : Prop where
  current : t.current = s.current
  stat (route : List String) : t.stat route = s.stat route ∨
    (s.stat route).all Stat.isFile = true ∧ (t.stat route).any Stat.isFile = true

namespace Grown

variable {s t u : Store}

theorem refl (s : Store) : Grown s s := ⟨rfl, fun _ => .inl rfl⟩

theorem trans (hst : Grown s t) (htu : Grown t u) : Grown s u := by
  refine ⟨htu.current.trans hst.current, fun route => ?_⟩
  rcases hst.stat route with h | ⟨hs, ht⟩ <;> rcases htu.stat route with h' | ⟨ht', hu⟩
  · exact .inl (h'.trans h)
  · exact .inr ⟨h ▸ ht', hu⟩
  · exact .inr ⟨hs, h'.symm ▸ ht⟩
  · exact .inr ⟨hs, hu⟩

/-- Folders stay, and no new ones are made. -/
theorem stat_folder_iff (h : Grown s t) {route : List String} :
    t.stat route = some .folder ↔ s.stat route = some .folder := by
  rcases h.stat route with he | ⟨hs, ht⟩
  · rw [he]
  · constructor
    · intro hf
      rw [hf] at ht
      cases ht
    · intro hf
      rw [hf] at hs
      cases hs

/-- Links stay, and no new ones are made. -/
theorem stat_link_iff (h : Grown s t) {route : List String} {target : String} :
    t.stat route = some (.link target) ↔ s.stat route = some (.link target) := by
  rcases h.stat route with he | ⟨hs, ht⟩
  · rw [he]
  · constructor
    · intro hl
      rw [hl] at ht
      cases ht
    · intro hl
      rw [hl] at hs
      cases hs

/-- Files stay files. -/
theorem any_isFile (h : Grown s t) {route : List String}
    (hf : (s.stat route).any Stat.isFile = true) : (t.stat route).any Stat.isFile = true := by
  rcases h.stat route with he | ⟨-, ht⟩
  · rwa [he]
  · exact ht

/-- A file that is written into a folder makes the store grow. -/
theorem put {here : List String} {name : String} (hf : s.stat here = some .folder)
    (hn : (s.stat (here ++ [name])).all Stat.isFile = true) (bytes : ByteArray) :
    Grown s (s.put (here ++ [name]) (.file bytes)) := by
  refine ⟨rfl, fun route => ?_⟩
  rw [Store.stat_put hf]
  · split
    · next hr => exact .inr ⟨hr ▸ hn, rfl⟩
    · exact .inl rfl
  · intro h
    rw [h] at hn
    cases hn

/-- A name takes the same turn, except that there may be a file now where nothing was. -/
theorem turn (h : Grown s t) (here : List String) (name : String) :
    t.turn here name = s.turn here name ∨
      s.turn here name = .missing ∧ t.turn here name = .down ∧
        t.stat (here ++ [name]) ≠ some .folder := by
  by_cases hf : s.stat here = some .folder
  · rw [Store.turn_of_folder hf, Store.turn_of_folder (h.stat_folder_iff.2 hf)]
    split
    · exact .inl rfl
    split
    · exact .inl rfl
    split
    · exact .inl rfl
    rcases h.stat (here ++ [name]) with he | ⟨hs, ht⟩
    · exact .inl (by rw [he])
    cases hnew : t.stat (here ++ [name]) with
    | none => simp [hnew] at ht
    | some new =>
        cases new with
        | link | folder => simp [hnew, Stat.isFile] at ht
        | file bytes =>
            cases hold : s.stat (here ++ [name]) with
            | none => exact .inr ⟨rfl, rfl, nofun⟩
            | some old =>
                cases old with
                | file => exact .inl rfl
                | link | folder => simp [hold, Stat.isFile] at hs
  · rw [Store.turn_of_ne_folder hf, Store.turn_of_ne_folder (mt h.stat_folder_iff.1 hf)]
    exact .inl rfl

/-- **Names lead to the same route in a grown store.** -/
theorem walk (h : Grown s t) (access : Access) (links : Nat) (here names : List String) :
    (t.walk access links here names).toOption.map (·.route) =
      (s.walk access links here names).toOption.map (·.route) := by
  induction links, here, names using Store.walk_induction with
  | nil links here => rw [Store.walk_nil, Store.walk_nil]; rfl
  | cons links here name rest ihNames ihLinks =>
      rcases h.turn here name with ht | ⟨hs, ht, hnot⟩
      · rw [Store.walk_cons, Store.walk_cons, ht]
        split
        · rfl
        cases s.turn here name with
        | notFolder | tooLong | missing => rfl
        | stay | up | down => exact ihNames _
        | link target =>
            dsimp only
            split
            · rfl
            · cases links with
              | zero => rfl
              | succ left => exact ihLinks left (Nat.lt_succ_self left) _ _
      by_cases hc : access = .create ∧ rest = [""]
      · rw [Store.walk_cons, Store.walk_cons, hs, ht, if_pos ⟨nofun, hc⟩, if_pos ⟨nofun, hc⟩]
      rw [Store.walk_cons_of_not_closing _ hc, Store.walk_cons_of_not_closing _ hc, hs, ht]
      -- nothing goes on from the new file, as nothing went on from the missing one
      cases rest with
      | nil => rw [Store.walk_nil t access links (here ++ [name])]; rfl
      | cons next rest => rw [Store.walk_of_ne_folder hnot]; rfl

/-- **A path leads to the same route in a grown store.** -/
theorem route? (h : Grown s t) (access : Access) (path : String) :
    t.route? access path = s.route? access path := by
  rw [Store.route?, Store.route?, Store.resolve, Store.resolve, h.current]
  cases Fault.ofPath? path with
  | some fault => rfl
  | none => exact h.walk access _ _ _

/-- The same links stand at the ends of paths. -/
theorem lookup_link_iff (h : Grown s t) {access : Access} {path target : String} :
    t.lookup access path = .ok (.link target) ↔ s.lookup access path = .ok (.link target) := by
  simp only [Store.lookup_eq_link_iff, h.route?, h.stat_link_iff]

end Grown

/-- **Writing a file** into a folder changes what stands at its route, and nothing else. -/
theorem Store.write_file {store : Store} {path : String} {route here : List String} {name : String}
    (hr : store.route? .create path = some route) (hf : store.stat here = some .folder)
    (he : route = here ++ [name]) (hn : (store.stat route).all Stat.isFile = true)
    (bytes : ByteArray) :
    ∃ after, store.write path bytes = .ok after ∧ Grown store after ∧
      ∀ other, after.stat other =
        if other = route then some (.file bytes) else store.stat other := by
  have hne : store.stat route ≠ some .folder := by
    intro h
    rw [h] at hn
    cases hn
  subst he
  exact ⟨store.put (here ++ [name]) (.file bytes), write_eq_ok_iff.2 ⟨_, hr, hne, rfl⟩,
    .put hf hn bytes, stat_put hf hne bytes⟩

end Restyle
