import Restyle.Proofs.Storage.Names
import Restyle.Proofs.Storage.Stat

/-!
# Where paths lead

A path is followed name by name.  What the next name does depends on what stands at the route so far
and one name further on, and on nothing else: `Store.turn`.

* `Store.walk_cons`: following a path takes one turn after the other.
* `Store.walk_inspect`: to look at a path is to follow it, unless a link stands at its end.
* `Store.walk_append`: **a path through a folder** goes on from where the path to the folder leads,
  with the links that are left over.
* `Store.walk_down`: names of folders lead down through them.
* `Store.walk_name`: at the end of a path, a name that is no link leads to itself.
-/

namespace Restyle

/-- What the next name of a path does. -/
inductive Turn where
  | notFolder
  | stay
  | up
  | tooLong
  | missing
  | link (target : String)
  | down
deriving DecidableEq

namespace Store

/-- What the name does at the route `here`. -/
def turn (store : Store) (here : List String) (name : String) : Turn :=
  match store.stat here with
  | some .folder =>
    if name = "" ∨ name = "." then .stay
    else if name = ".." then .up
    else if Path.isLongName name then .tooLong
    else
      match store.stat (here ++ [name]) with
      | none                => .missing
      | some (.link target) => .link target
      | some _              => .down
  | _            => .notFolder

theorem turn_of_folder {store : Store} {here : List String} (hf : store.stat here = some .folder)
    (name : String) :
    store.turn here name =
      if name = "" ∨ name = "." then .stay
      else if name = ".." then .up
      else if Path.isLongName name then .tooLong
      else
        match store.stat (here ++ [name]) with
        | none                => .missing
        | some (.link target) => .link target
        | some _              => .down := by
  rw [turn, hf]

theorem turn_of_ne_folder {store : Store} {here : List String}
    (hf : store.stat here ≠ some .folder) (name : String) :
    store.turn here name = .notFolder := by
  rw [turn]
  split
  · next h => exact absurd h hf
  · rfl

/-- What stands one name further on, where the turn depends on it. -/
theorem stat_of_turn {store : Store} {here : List String} {name : String} :
    (store.turn here name = .missing → store.stat (here ++ [name]) = none) ∧
      ∀ target, store.turn here name = .link target →
        store.stat (here ++ [name]) = some (.link target) := by
  by_cases hf : store.stat here = some .folder
  · rw [turn_of_folder hf]
    split
    · exact ⟨nofun, nofun⟩
    split
    · exact ⟨nofun, nofun⟩
    split
    · exact ⟨nofun, nofun⟩
    split
    · next hs => exact ⟨fun _ => hs, nofun⟩
    · next hs => exact ⟨nofun, fun _ h => by cases h; exact hs⟩
    · exact ⟨nofun, nofun⟩
  · rw [turn_of_ne_folder hf]
    exact ⟨nofun, nofun⟩

/-- Goes on where a link leads, if another link may be followed. -/
def jump (store : Store) (access : Access) : Nat → List String → List String → Except Fault Place
  | 0,         _,    _     => .error .tooManyLinks
  | links + 1, here, names => store.walk access links here names

theorem walk_eq (store : Store) (access : Access) (links : Nat) :
    store.walk access links = store.walkNames access (store.jump access links) := by
  cases links <;> rfl

theorem walk_nil (store : Store) (access : Access) (links : Nat) (here : List String) :
    store.walk access links here [] = .ok ⟨here, store.root.get? here⟩ := by
  rw [walk_eq]
  rfl

/-- **Following a path takes one turn after the other.** -/
theorem walk_cons (store : Store) (access : Access) (links : Nat) (here : List String)
    (name : String) (rest : List String) :
    store.walk access links here (name :: rest) =
      if store.turn here name ≠ .notFolder ∧ access = .create ∧ rest = [""] then .error .isFolder
      else
        match store.turn here name with
        | .notFolder   => .error .notFolder
        | .stay        => store.walk access links here rest
        | .up          => store.walk access links here.dropLast rest
        | .tooLong     => .error .tooLong
        | .missing     => if rest = [] then .ok ⟨here ++ [name], none⟩ else .error .missing
        | .link target =>
          if access = .inspect ∧ rest = [] then .ok ⟨here ++ [name], some (.link target)⟩
          else store.jump access links (start here target) (Path.names target ++ rest)
        | .down        => store.walk access links (here ++ [name]) rest := by
  rw [walk_eq, walkNames]
  by_cases hf : store.stat here = some .folder
  · obtain ⟨listing, hl⟩ := stat_eq_folder_iff.1 hf
    have hs := stat_snoc hl name
    have hturn : store.turn here name ≠ .notFolder := by
      rw [turn_of_folder hf]
      split
      · nofun
      split
      · nofun
      split
      · nofun
      split <;> nofun
    simp only [hl, hturn, ne_eq, not_false_eq_true, true_and]
    split
    · rfl
    rw [turn_of_folder hf]
    split
    · rfl
    split
    · rfl
    split
    · rfl
    rw [hs]
    cases hlook : listing.lookup name with
    | none => cases rest <;> rfl
    | some entry => cases entry <;> rfl
  · simp only [turn_of_ne_folder hf, ne_eq, not_true_eq_false, false_and, if_false]
    split
    · next listing hl => exact absurd (stat_eq_folder_iff.2 ⟨listing, hl⟩) hf
    · rfl

theorem walk_of_ne_folder {store : Store} {here : List String}
    (h : store.stat here ≠ some .folder) (access : Access) (links : Nat) (name : String)
    (rest : List String) :
    store.walk access links here (name :: rest) = .error .notFolder := by
  rw [walk_cons, turn_of_ne_folder h, if_neg fun h => h.1 rfl]

/-- Only who is to write a file is stopped by a slash at the end. -/
theorem walk_cons_of_not_closing (store : Store) {access : Access} {rest : List String}
    (hc : ¬(access = .create ∧ rest = [""])) (links : Nat) (here : List String) (name : String) :
    store.walk access links here (name :: rest) =
      match store.turn here name with
      | .notFolder   => .error .notFolder
      | .stay        => store.walk access links here rest
      | .up          => store.walk access links here.dropLast rest
      | .tooLong     => .error .tooLong
      | .missing     => if rest = [] then .ok ⟨here ++ [name], none⟩ else .error .missing
      | .link target =>
        if access = .inspect ∧ rest = [] then .ok ⟨here ++ [name], some (.link target)⟩
        else store.jump access links (start here target) (Path.names target ++ rest)
      | .down        => store.walk access links (here ++ [name]) rest := by
  rw [walk_cons, if_neg fun h => hc h.2]

/-! ### Whole paths -/

/-- A path is followed to its end by following its names, and where a link stands what is left of
the path with fewer links to go. -/
theorem walk_induction {motive : Nat → List String → List String → Prop}
    (nil : ∀ links here, motive links here [])
    (cons : ∀ links here name rest, (∀ there, motive links there rest) →
      (∀ left, left < links → ∀ there names, motive left there names) →
      motive links here (name :: rest))
    (links : Nat) (here names : List String) : motive links here names := by
  induction links using Nat.strongRecOn generalizing here names with
  | ind links ihLinks =>
      induction names generalizing here with
      | nil => exact nil links here
      | cons name rest ihNames => exact cons links here name rest ihNames ihLinks

/-- The place where a path ends is described as it is. -/
theorem walk_entry {store : Store} {access : Access} {place : Place} (links : Nat)
    (here names : List String) :
    store.walk access links here names = .ok place →
      place.entry? = store.root.get? place.route := by
  induction links, here, names using walk_induction with
  | nil links here =>
      rw [walk_nil]
      rintro ⟨⟩
      rfl
  | cons links here name rest ihNames ihLinks =>
      intro h
      rw [walk_cons] at h
      split at h
      · cases h
      split at h
      · cases h
      · exact ihNames _ h
      · exact ihNames _ h
      · cases h
      · next ht =>
          split at h
          · cases h
            exact (Option.map_eq_none_iff.1 (stat_of_turn.1 ht)).symm
          · cases h
      · next target ht =>
          split at h
          · cases h
            obtain ⟨entry, he, hs⟩ := Option.map_eq_some_iff.1 (stat_of_turn.2 _ ht)
            cases entry with
            | link other => cases hs; exact he.symm
            | file | folder => cases hs
          · cases links with
            | zero => cases h
            | succ left => exact ihLinks left (Nat.lt_succ_self left) _ _ h
      · exact ihNames _ h

/-- To look at a path is to follow it, unless a link stands at its end. -/
theorem walk_inspect (store : Store) (links : Nat) (here names : List String) :
    (∃ route target, store.walk .inspect links here names = .ok ⟨route, some (.link target)⟩) ∨
      store.walk .inspect links here names = store.walk .follow links here names := by
  induction links, here, names using walk_induction with
  | nil links here => exact .inr (by rw [walk_nil, walk_nil])
  | cons links here name rest ihNames ihLinks =>
      rw [walk_cons_of_not_closing _ (by simp), walk_cons_of_not_closing _ (by simp)]
      cases store.turn here name with
      | notFolder | tooLong | missing => exact .inr rfl
      | stay | up | down => exact ihNames _
      | link target =>
          by_cases hr : rest = []
          · exact .inl ⟨here ++ [name], target, if_pos ⟨rfl, hr⟩⟩
          simp only [hr, and_false, if_false]
          cases links with
          | zero => exact .inr rfl
          | succ left => exact ihLinks left (Nat.lt_succ_self left) _ _

/-- A slash at the end makes no difference to where a path leads, if it leads anywhere. -/
theorem walk_of_closing {store : Store} {place : Place} (links : Nat) (here names : List String) :
    store.walk .follow links here (names ++ [""]) = .ok place →
      store.walk .follow links here names = .ok place := by
  induction links, here, names using walk_induction with
  | nil links here =>
      intro h
      rw [List.nil_append, walk_cons_of_not_closing _ (by simp)] at h
      rw [walk_nil]
      by_cases hf : store.stat here = some .folder
      · rw [turn_of_folder hf, if_pos (.inl rfl)] at h
        rw [← h, walk_nil]
      · rw [turn_of_ne_folder hf] at h
        cases h
  | cons links here name rest ihNames ihLinks =>
      rw [List.cons_append, walk_cons_of_not_closing _ (by simp), walk_cons_of_not_closing _ (by simp)]
      cases store.turn here name with
      | notFolder | tooLong => nofun
      | stay | up | down => exact ihNames _
      | missing =>
          simp only [List.append_eq_nil_iff, List.cons_ne_nil, and_false, if_false]
          nofun
      | link target =>
          simp only [reduceCtorEq, false_and, if_false, ← List.append_assoc]
          cases links with
          | zero => nofun
          | succ left => exact ihLinks left (Nat.lt_succ_self left) _ _

/-- **A path through a folder** goes on from where the path to the folder leads. -/
theorem walk_append {store : Store} {route : List String} {listing : List (String × Entry)}
    (links : Nat) (here names : List String) :
    store.walk .follow links here names = .ok ⟨route, some (.folder listing)⟩ →
      ∃ left, ∀ access more, more ≠ [] → more ≠ [""] →
        store.walk access links here (names ++ more) = store.walk access left route more := by
  induction links, here, names using walk_induction with
  | nil links here =>
      intro h
      rw [walk_nil] at h
      injection h with h
      injection h with hr
      subst hr
      exact ⟨links, fun _ _ _ _ => rfl⟩
  | cons links here name rest ihNames ihLinks =>
      rw [walk_cons_of_not_closing _ (by simp)]
      -- the names in front of `more` are never the last ones, so no access stops at them
      have hcons (access : Access) (more : List String) (hm : more ≠ []) (hc : more ≠ [""]) :
          store.walk access links here (name :: rest ++ more) =
            match store.turn here name with
            | .notFolder   => .error .notFolder
            | .stay        => store.walk access links here (rest ++ more)
            | .up          => store.walk access links here.dropLast (rest ++ more)
            | .tooLong     => .error .tooLong
            | .missing     => .error .missing
            | .link target =>
              store.jump access links (start here target) (Path.names target ++ rest ++ more)
            | .down        => store.walk access links (here ++ [name]) (rest ++ more) := by
        have hm' : rest ++ more ≠ [] := by simp [hm]
        have hc' : rest ++ more ≠ [""] := by
          cases rest with
          | nil => exact hc
          | cons first rest => simp [hm]
        rw [List.cons_append, walk_cons_of_not_closing _ fun h => hc' h.2]
        simp only [hm', and_false, if_false, List.append_assoc]
      cases ht : store.turn here name with
      | notFolder | tooLong => nofun
      | missing =>
          intro h
          dsimp only at h
          split at h <;> cases h
      | stay | up | down =>
          intro h
          obtain ⟨left, hleft⟩ := ihNames _ h
          refine ⟨left, fun access more hm hc => ?_⟩
          rw [hcons access more hm hc, ht]
          exact hleft access more hm hc
      | link target =>
          simp only [reduceCtorEq, false_and, if_false]
          cases links with
          | zero => nofun
          | succ fewer =>
              intro h
              obtain ⟨left, hleft⟩ := ihLinks fewer (Nat.lt_succ_self fewer) _ _ h
              refine ⟨left, fun access more hm hc => ?_⟩
              rw [hcons access more hm hc, ht]
              exact hleft access more hm hc

/-! ### Ordinary names -/

/-- The name leads one step down from a folder that holds it. -/
theorem turn_of_isPlain {store : Store} {here : List String} {name : String}
    (hf : store.stat here = some .folder) (hp : Path.isPlain name = true) :
    store.turn here name =
      if Path.isLongName name then .tooLong
      else
        match store.stat (here ++ [name]) with
        | none                => .missing
        | some (.link target) => .link target
        | some _              => .down := by
  simp only [Path.isPlain, Bool.and_eq_true, bne_iff_ne, ne_eq] at hp
  obtain ⟨⟨⟨⟨hempty, hdot⟩, hdots⟩, -⟩, -⟩ := hp
  rw [turn_of_folder hf, if_neg (by simp [hempty, hdot]), if_neg hdots]

/-- Names of folders lead down through them. -/
theorem walk_down {store : Store} {access : Access} {links : Nat} {more : List String}
    (hm : more ≠ []) (hc : more ≠ [""]) (here names : List String)
    (hn : ∀ name ∈ names, Path.isName name = true)
    (hf : store.stat (here ++ names) = some .folder) :
    store.walk access links here (names ++ more) =
      store.walk access links (here ++ names) more := by
  induction names generalizing here with
  | nil => rw [List.append_nil, List.nil_append]
  | cons name rest ih =>
      rw [List.append_cons] at hf ⊢
      obtain ⟨hname, hrest⟩ := List.forall_mem_cons.1 hn
      have hdown : store.stat (here ++ [name]) = some .folder := stat_folder_of_append hf
      have hturn : store.turn here name = .down := by
        rw [Path.isName, Bool.and_eq_true, Bool.not_eq_true'] at hname
        rw [turn_of_isPlain (stat_folder_of_append hdown) hname.1, hname.2, hdown]
        rfl
      rw [List.cons_append, walk_cons_of_not_closing, hturn]
      · exact ih (here ++ [name]) hrest hf
      · rintro ⟨-, h⟩
        cases rest with
        | nil => exact hc h
        | cons first rest => simp [hm] at h

/-- At the end of a path, a name that is no link leads to itself. -/
theorem walk_name {store : Store} {here : List String} {name : String}
    (hf : store.stat here = some .folder) (hp : Path.isPlain name = true)
    (hl : ∀ target, store.stat (here ++ [name]) ≠ some (.link target))
    (access : Access) (links : Nat) :
    store.walk access links here [name] =
      if Path.isLongName name then .error .tooLong
      else .ok ⟨here ++ [name], store.root.get? (here ++ [name])⟩ := by
  rw [walk_cons_of_not_closing _ (by simp), turn_of_isPlain hf hp]
  by_cases hlong : Path.isLongName name = true
  · rw [if_pos hlong, if_pos hlong]
  rw [if_neg hlong, if_neg hlong]
  cases hs : store.stat (here ++ [name]) with
  | none =>
      rw [Option.map_eq_none_iff.1 hs]
      rfl
  | some stat =>
      cases stat with
      | link target => exact absurd hs (hl target)
      | file | folder => exact walk_nil _ _ _ _

end Store

end Restyle
