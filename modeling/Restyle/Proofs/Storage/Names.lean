import Restyle.Storage.Fault

/-!
# Names in paths

A path is put together from the path of a folder and the names on the way down from it.  Its names
are then the names of the folder's path, without a slash at the end, and the names on the way.

* `Path.splitSlashes_append`: a slash divides the parts on its left from the parts on its right.
* `Path.names_joinAll`: **the names of a path that was put together** are the names it was put
  together from.
* `Path.backup_joinAll`: the backup of a file stands beside the file.
-/

namespace Restyle

namespace Path

/-- The name can stand in a folder, unless it is too long. -/
def isPlain (name : String) : Bool :=
  name != "" && name != "." && name != ".." && !name.toList.contains '/' &&
    !name.toList.contains '\x00'

/-- The name can stand in a folder. -/
def isName (name : String) : Bool := isPlain name && !isLongName name

/-- A name that a folder can hold is a plain one. -/
theorem isPlain_of_isName {name : String} (h : isName name = true) : isPlain name = true := by
  rw [isName, Bool.and_eq_true] at h
  exact h.1

theorem ne_empty_of_isPlain {name : String} (h : isPlain name = true) : name ≠ "" := by
  rintro rfl
  simp [isPlain] at h

theorem slash_notMem_of_isPlain {name : String} (h : isPlain name = true) :
    '/' ∉ name.toList := by
  simp only [isPlain, Bool.and_eq_true, Bool.not_eq_true', List.contains_eq_mem,
    decide_eq_false_iff_not] at h
  exact h.1.2

theorem nul_notMem_of_isPlain {name : String} (h : isPlain name = true) :
    '\x00' ∉ name.toList := by
  simp only [isPlain, Bool.and_eq_true, Bool.not_eq_true', List.contains_eq_mem,
    decide_eq_false_iff_not] at h
  exact h.2

/-! ### Parts between slashes -/

theorem splitSlashes_of_notMem {text : Text} (h : '/' ∉ text) : splitSlashes text = [text] := by
  induction text with
  | nil => rfl
  | cons c rest ih =>
      rw [List.mem_cons, not_or] at h
      rw [splitSlashes, if_neg (Ne.symm h.1), ih h.2]

theorem splitSlashes_ne_nil (text : Text) : splitSlashes text ≠ [] := by
  fun_cases splitSlashes text <;> simp_all

/-- A slash divides the parts on its left from the parts on its right. -/
theorem splitSlashes_append (left right : Text) :
    splitSlashes (left ++ '/' :: right) = splitSlashes left ++ splitSlashes right := by
  induction left with
  | nil => rfl
  | cons c rest ih =>
      rw [List.cons_append, splitSlashes, splitSlashes, ih]
      split
      · rfl
      · cases hs : splitSlashes rest with
        | nil => exact absurd hs (splitSlashes_ne_nil rest)
        | cons part parts => rfl

/-! ### The names of a path that was put together -/

/-- The names of a path, without a slash at its end. -/
def base (path : String) : List String :=
  ((splitSlashes path.toList).filter (!·.isEmpty)).map String.ofList

/-- The names of a path are its plain ones, but for a slash at the end. -/
theorem names_eq_base_or (path : String) :
    names path = base path ∨ names path = base path ++ [""] := by
  rw [names, base]
  split
  · exact .inr rfl
  · exact .inl (List.append_nil _)

/-- The path of a folder is divided from a name in it by one slash. -/
theorem toList_join (dir name : String) :
    ((join dir name).toList = dir.toList ++ name.toList ∧
        (dir.toList = [] ∨ ∃ front, dir.toList = front ++ ['/'])) ∨
      (join dir name).toList = dir.toList ++ '/' :: name.toList := by
  rcases List.eq_nil_or_concat dir.toList with h | ⟨front, last, h⟩
  · exact .inl ⟨by rw [join, h]; simp [h], .inl h⟩
  · by_cases hl : last = '/'
    · subst hl
      exact .inl ⟨by rw [join, h]; simp [h], .inr ⟨front, h.trans (List.concat_eq_append ..)⟩⟩
    · refine .inr ?_
      have : join dir name = dir ++ "/" ++ name := by
        rw [join, h]
        simp [hl]
      simp [this]

/-- The last part of the path of a name in a folder is the name; the others are those of the
folder's path. -/
theorem splitSlashes_join (dir : String) {name : String} (hp : isPlain name = true) :
    ∃ front, splitSlashes (join dir name).toList = front ++ [name.toList] ∧
      front.filter (!·.isEmpty) = (splitSlashes dir.toList).filter (!·.isEmpty) := by
  have hname := splitSlashes_of_notMem (slash_notMem_of_isPlain hp)
  rcases toList_join dir name with ⟨hj, hd | ⟨front, hd⟩⟩ | hj
  · refine ⟨[], ?_, ?_⟩
    · rw [hj, hd, List.nil_append, hname, List.nil_append]
    · rw [hd]
      rfl
  · refine ⟨splitSlashes front, ?_, ?_⟩
    · rw [hj, hd, List.append_assoc, List.singleton_append, splitSlashes_append, hname]
    · rw [hd, splitSlashes_append, List.filter_append]
      exact (List.append_nil _).symm
  · exact ⟨splitSlashes dir.toList, by rw [hj, splitSlashes_append, hname], rfl⟩

/-- **Joining puts a name behind** those of the folder. -/
theorem base_join (dir : String) {name : String} (hp : isPlain name = true) :
    base (join dir name) = base dir ++ [name] := by
  obtain ⟨front, hs, hf⟩ := splitSlashes_join dir hp
  have hne : name.toList ≠ [] := by simpa using ne_empty_of_isPlain hp
  rw [base, base, hs, List.filter_append, hf]
  simp [hne]

theorem names_join (dir : String) {name : String} (hp : isPlain name = true) :
    names (join dir name) = base dir ++ [name] := by
  rw [← base_join dir hp]
  obtain ⟨front, hs, -⟩ := splitSlashes_join dir hp
  have hne : name.toList ≠ [] := by simpa using ne_empty_of_isPlain hp
  rw [names, base, hs]
  simp [hne]

/-- The last name of a path is the one that was joined last. -/
theorem fileName_join (dir : String) {name : String} (hp : isPlain name = true) :
    fileName (join dir name) = name := by
  obtain ⟨front, hs, -⟩ := splitSlashes_join dir hp
  rw [fileName, hs]
  simp

/-- The path of what a route leads to from the folder at `dir`. -/
def joinAll (dir : String) (route : List String) : String := route.foldl join dir

theorem joinAll_snoc (dir : String) (route : List String) (name : String) :
    joinAll dir (route ++ [name]) = join (joinAll dir route) name := by
  simp [joinAll]

/-- Joining all names of a route puts them behind those of the folder. -/
theorem base_joinAll (dir : String) {route : List String}
    (hp : ∀ name ∈ route, isPlain name = true) : base (joinAll dir route) = base dir ++ route := by
  induction route generalizing dir with
  | nil => exact (List.append_nil _).symm
  | cons name rest ih =>
      obtain ⟨hname, hrest⟩ := List.forall_mem_cons.1 hp
      rw [joinAll, List.foldl_cons, ← joinAll, ih _ hrest, base_join dir hname, List.append_assoc,
        List.singleton_append]

/-- **The names of a path that was put together** are the names it was put together from. -/
theorem names_joinAll (dir : String) {route : List String} {name : String}
    (hr : ∀ name ∈ route, isPlain name = true) (hp : isPlain name = true) :
    names (joinAll dir (route ++ [name])) = base dir ++ route ++ [name] := by
  rw [joinAll_snoc, names_join _ hp, base_joinAll dir hr]

/-- The backup of a file stands beside the file. -/
theorem backup_joinAll (dir : String) (route : List String) (name : String) :
    backup (joinAll dir (route ++ [name])) = joinAll dir (route ++ [backup name]) := by
  rw [joinAll_snoc, joinAll_snoc, backup, backup, join, join]
  split <;> simp [String.append_assoc]

/-- A path that goes on from another holds no new character that would end it. -/
theorem exists_toList_joinAll (dir : String) {route : List String}
    (hp : ∀ name ∈ route, isPlain name = true) :
    ∃ more, (joinAll dir route).toList = dir.toList ++ more ∧ '\x00' ∉ more := by
  induction route generalizing dir with
  | nil => exact ⟨[], (List.append_nil _).symm, nofun⟩
  | cons name rest ih =>
      obtain ⟨hname, hrest⟩ := List.forall_mem_cons.1 hp
      obtain ⟨more, hmore, hnul⟩ := ih (join dir name) hrest
      have hn := nul_notMem_of_isPlain hname
      rw [joinAll, List.foldl_cons, ← joinAll, hmore]
      rcases toList_join dir name with ⟨hj, -⟩ | hj
      · exact ⟨name.toList ++ more, by rw [hj, List.append_assoc], by simp [hn, hnul]⟩
      · exact ⟨'/' :: name.toList ++ more, by rw [hj, List.append_assoc], by simp [hn, hnul]⟩

/-- What a path must be to be looked up at all. -/
theorem ofPath?_eq_none_iff {path : String} :
    Fault.ofPath? path = none ↔
      '\x00' ∉ path.toList ∧ isLong path = false ∧ path ≠ "" := by
  rw [Fault.ofPath?]
  split
  · simp_all
  split
  · simp_all
  split <;> simp_all

/-- A path that goes on from a good one is refused only when it is too long. -/
theorem ofPath?_joinAll {dir : String} {route : List String} (hd : Fault.ofPath? dir = none)
    (hp : ∀ name ∈ route, isPlain name = true) :
    Fault.ofPath? (joinAll dir route) =
      if isLong (joinAll dir route) then some .tooLong else none := by
  obtain ⟨more, hmore, hnul⟩ := exists_toList_joinAll dir hp
  obtain ⟨hdn, -, hde⟩ := ofPath?_eq_none_iff.1 hd
  have hn : '\x00' ∉ (joinAll dir route).toList := by simp [hmore, hdn, hnul]
  split
  · next hl => simp [Fault.ofPath?, hn, hl]
  · next hl =>
      refine ofPath?_eq_none_iff.2 ⟨hn, Bool.not_eq_true _ ▸ hl, fun he => hde ?_⟩
      rw [he] at hmore
      have hnil : dir.toList = [] := (List.append_eq_nil_iff.1 hmore.symm).1
      simpa using hnil

/-- A path that goes on from another starts where the other starts. -/
theorem isAbsolute_joinAll {dir : String} {route : List String} (hd : dir ≠ "")
    (hp : ∀ name ∈ route, isPlain name = true) :
    isAbsolute (joinAll dir route) = isAbsolute dir := by
  obtain ⟨more, hmore, -⟩ := exists_toList_joinAll dir hp
  have hne : dir.toList ≠ [] := by simpa using hd
  rw [isAbsolute, isAbsolute, hmore, List.head?_append, Option.or_of_isSome]
  simpa using hne

end Path

end Restyle
