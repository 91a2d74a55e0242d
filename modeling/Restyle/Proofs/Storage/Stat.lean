import Restyle.Storage.Store

/-!
# What stands at a route

A store is observed route by route: at each stands a file with its bytes, a link with its target, a
folder, or nothing.  What a folder holds is seen at the routes through it.

* `Entry.get?_snoc`: one name further on from a folder is what its listing says.
* `Entry.stat_get?_put`: **a file that is put into a folder** changes what stands at its own route,
  and nothing else.
-/

namespace Restyle

/-- What stands at a route, without what a folder holds. -/
inductive Stat where
  | file (bytes : ByteArray)
  | link (target : String)
  | folder

namespace Entry

/-- What the entry is. -/
def stat : Entry → Stat
  | .file bytes  => .file bytes
  | .link target => .link target
  | .folder _    => .folder

/-! ### Names in a listing -/

/-- A name leads to what was put there. -/
theorem lookup_setName_self (name : String) (entry : Entry) (listing : List (String × Entry)) :
    (setName name entry listing).lookup name = some entry := by
  fun_induction setName name entry listing with
  | case1 => simp
  | case2 => simp
  | case3 => simp
  | case4 other old rest hne _ ih =>
      rw [List.lookup_cons, beq_false_of_ne hne]
      exact ih

/-- Other names lead where they did. -/
theorem lookup_setName_ne {name other : String} (entry : Entry) (h : other ≠ name)
    (listing : List (String × Entry)) :
    (setName name entry listing).lookup other = listing.lookup other := by
  fun_induction setName name entry listing with
  | case1 => rw [List.lookup_cons, beq_false_of_ne h]
  | case2 => rw [List.lookup_cons, List.lookup_cons, beq_false_of_ne h]
  | case3 => rw [List.lookup_cons, beq_false_of_ne h]
  | case4 another old rest _ _ ih => rw [List.lookup_cons, List.lookup_cons, ih]

/-! ### Routes -/

theorem get?_nil (entry : Entry) : entry.get? [] = some entry := by
  cases entry <;> rfl

theorem get?_folder_cons (listing : List (String × Entry)) (name : String) (route : List String) :
    (Entry.folder listing).get? (name :: route) = (listing.lookup name).bind (·.get? route) := by
  rw [get?]
  cases listing.lookup name <;> rfl

theorem get?_cons_of_not_folder {entry : Entry} (h : ∀ listing, entry ≠ .folder listing)
    (name : String) (route : List String) : entry.get? (name :: route) = none := by
  cases entry with
  | file | link => rfl
  | folder listing => exact absurd rfl (h listing)

/-- A route may be followed in two parts. -/
theorem get?_append (entry : Entry) (a b : List String) :
    entry.get? (a ++ b) = (entry.get? a).bind (·.get? b) := by
  induction a generalizing entry with
  | nil => rw [List.nil_append, get?_nil]; rfl
  | cons name a ih =>
      rw [List.cons_append]
      cases entry with
      | file | link => rfl
      | folder listing =>
          rw [get?_folder_cons, get?_folder_cons]
          cases listing.lookup name with
          | none => rfl
          | some entry => exact ih entry

/-- One name further on from a folder stands what its listing says. -/
theorem get?_snoc {entry : Entry} {here : List String} {listing : List (String × Entry)}
    (h : entry.get? here = some (.folder listing)) (name : String) :
    entry.get? (here ++ [name]) = listing.lookup name := by
  rw [get?_append, h, Option.bind_some, get?_folder_cons]
  cases listing.lookup name with
  | none => rfl
  | some entry => exact get?_nil entry

/-! ### Putting a file into a folder -/

/-- **A file that is put into a folder** changes what stands at its own route, and nothing else,
unless it takes the place of another folder. -/
theorem stat_get?_put {entry : Entry} {here : List String} {listing : List (String × Entry)}
    {name : String} (hf : entry.get? here = some (.folder listing))
    (hn : ∀ inner, listing.lookup name ≠ some (.folder inner)) (bytes : ByteArray)
    (route : List String) :
    ((entry.put (here ++ [name]) (.file bytes)).get? route).map stat =
      if route = here ++ [name] then some (.file bytes) else (entry.get? route).map stat := by
  induction here generalizing entry route with
  | nil =>
      rw [get?_nil] at hf
      cases hf
      rw [List.nil_append, put]
      cases route with
      | nil => rfl
      | cons other rest =>
          rw [get?_folder_cons, get?_folder_cons]
          by_cases ho : other = name
          · subst ho
            rw [lookup_setName_self, put, Option.bind_some]
            cases rest with
            | nil => rw [get?_nil, if_pos rfl]; rfl
            | cons next rest =>
                -- neither the new file nor what it replaces holds anything
                have hnew : (Entry.file bytes).get? (next :: rest) = none := rfl
                rw [if_neg (by simp), hnew]
                cases hl : listing.lookup other with
                | none => rfl
                | some old =>
                    rw [Option.bind_some,
                      get?_cons_of_not_folder fun inner ho => hn inner (by rw [hl, ho])]
          · rw [lookup_setName_ne _ ho, if_neg (by simp [ho])]
  | cons first here ih =>
      cases entry with
      | file | link => cases hf
      | folder outer =>
          rw [get?_folder_cons] at hf
          obtain ⟨old, hl, hold⟩ := Option.bind_eq_some_iff.1 hf
          rw [List.cons_append, put, hl, Option.getD_some]
          cases route with
          | nil => rfl
          | cons other rest =>
              rw [get?_folder_cons, get?_folder_cons]
              by_cases ho : other = first
              · subst ho
                rw [lookup_setName_self, hl, Option.bind_some, Option.bind_some, ih hold]
                simp
              · rw [lookup_setName_ne _ ho, if_neg (by simp [ho])]

end Entry

namespace Store

/-- What stands at a route of the store. -/
def stat (store : Store) (route : List String) : Option Stat :=
  (store.root.get? route).map Entry.stat

theorem stat_eq_folder_iff {store : Store} {route : List String} :
    store.stat route = some .folder ↔ ∃ listing, store.root.get? route = some (.folder listing) := by
  rw [stat]
  constructor
  · intro h
    obtain ⟨entry, he, hs⟩ := Option.map_eq_some_iff.1 h
    cases entry with
    | file | link => cases hs
    | folder listing => exact ⟨listing, he⟩
  · rintro ⟨listing, he⟩
    rw [he]
    rfl

theorem stat_eq_file_iff {store : Store} {route : List String} {bytes : ByteArray} :
    store.stat route = some (.file bytes) ↔ store.root.get? route = some (.file bytes) := by
  rw [stat]
  cases store.root.get? route with
  | none => simp
  | some entry => cases entry <;> simp [Entry.stat]

theorem stat_eq_link_iff {store : Store} {route : List String} {target : String} :
    store.stat route = some (.link target) ↔ store.root.get? route = some (.link target) := by
  rw [stat]
  cases store.root.get? route with
  | none => simp
  | some entry => cases entry <;> simp [Entry.stat]

/-- The listing of a folder tells what stands one name further on. -/
theorem stat_snoc {store : Store} {here : List String} {listing : List (String × Entry)}
    (h : store.root.get? here = some (.folder listing)) (name : String) :
    store.stat (here ++ [name]) = (listing.lookup name).map Entry.stat := by
  rw [stat, Entry.get?_snoc h]

/-- **A file that is put into a folder** changes what stands at its own route, and nothing else. -/
theorem stat_put {store : Store} {here : List String} {name : String}
    (hf : store.stat here = some .folder) (hn : store.stat (here ++ [name]) ≠ some .folder)
    (bytes : ByteArray) (route : List String) :
    (store.put (here ++ [name]) (.file bytes)).stat route =
      if route = here ++ [name] then some (.file bytes) else store.stat route := by
  obtain ⟨listing, hl⟩ := stat_eq_folder_iff.1 hf
  rw [stat_snoc hl] at hn
  refine Entry.stat_get?_put hl (fun inner hi => hn ?_) bytes route
  rw [hi]
  rfl

/-- Whatever holds something is a folder. -/
theorem stat_folder_of_cons {store : Store} {here rest : List String} {name : String}
    (h : store.stat (here ++ name :: rest) ≠ none) : store.stat here = some .folder := by
  rw [stat, Entry.get?_append] at h
  cases hg : store.root.get? here with
  | none => simp [hg] at h
  | some entry =>
      cases entry with
      | folder listing => exact stat_eq_folder_iff.2 ⟨listing, hg⟩
      | file | link => simp [hg, Entry.get?] at h

/-- The way to a folder leads through folders. -/
theorem stat_folder_of_append {store : Store} {here more : List String}
    (h : store.stat (here ++ more) = some .folder) : store.stat here = some .folder := by
  cases more with
  | nil => rwa [List.append_nil] at h
  | cons name rest => exact stat_folder_of_cons (by rw [h]; nofun)

end Store

end Restyle
