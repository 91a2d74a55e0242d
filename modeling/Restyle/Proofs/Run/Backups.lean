import Restyle.Proofs.Run.Steps
import Restyle.Proofs.Storage.Spot

/-!
# What a run with backups keeps

A file is copied beside itself before it is written.  No file is another one's backup, so the copy
stays as it is while the run goes on.  All this holds only as long as no link stands where a backup
goes: a copy is written through the link, and may fall on the file itself.

* `Spot.In.copy`: copying a file to its backup.
* `Session.Backs`: what a run with backups keeps, and `Session.Backs.cons` for one more file.
* `Store.run_with_backups`: **a run with backups** leaves the bytes of every file it writes in the
  backup, and changes nothing but these files and backups.
* `Store.run_with_backups_through_link`: a link in the place of a backup makes a run lose a file.
-/

namespace Restyle

/-- A copy is two writes: the first one empties the target, and the second one fills it with what is
then read. -/
theorem Store.copy_eq_ok_iff {store after : Store} {path target : String} :
    store.copy path target = .ok after ↔
      ∃ old emptied bytes, store.read path = .ok old ∧ store.write target .empty = .ok emptied ∧
        emptied.read path = .ok bytes ∧ emptied.write target bytes = .ok after := by
  simp only [copy, bind, Except.bind]
  cases store.read path with
  | error fault => simp
  | ok old =>
      cases store.write target .empty with
      | error fault => simp
      | ok emptied => cases h : emptied.read path <;> simp [h]

/-- **Copying a file to its backup** puts its bytes there, and changes nothing else. -/
theorem Spot.In.copy {spot : Spot} {store copied : Store} {bytes : ByteArray} (h : spot.In store)
    (hl : ∀ target, store.lookup .inspect (Path.backup spot.path) ≠ .ok (.link target))
    (hb : store.stat spot.route = some (.file bytes))
    (hc : store.copy spot.path (Path.backup spot.path) = .ok copied) :
    (∀ access, store.route? access (Path.backup spot.path) = some spot.spare) ∧
      Grown store copied ∧
      ∀ route, copied.stat route =
        if route = spot.spare then some (.file bytes) else store.stat route := by
  obtain ⟨old, emptied, new, hold, hempty, hnew, hfull⟩ := Store.copy_eq_ok_iff.1 hc
  obtain ⟨route, hr, -⟩ := Store.read_eq_ok_iff.1 hold
  have hpath := (h.leads.eq hr).2
  obtain ⟨target, ht, hfolder, -⟩ := Store.write_eq_ok_iff.1 hempty
  have hspare := ((h.backup.resolve_right fun ⟨target, hlink⟩ => hl target hlink).eq ht).2
  cases (hspare .create).symm.trans ht
  -- what stands in the place of the backup is a file, if anything
  have hn : (store.stat spot.spare).all Stat.isFile = true := by
    cases hs : store.stat spot.spare with
    | none => rfl
    | some stat =>
        cases stat with
        | file => rfl
        | link link => exact absurd (Store.lookup_eq_link_iff.2 ⟨_, hspare .inspect, hs⟩) (hl link)
        | folder => exact absurd hs hfolder
  obtain ⟨first, hfirst, hg, hstat⟩ := Store.write_file (hspare .create) h.folder rfl hn .empty
  cases hempty.symm.trans hfirst
  -- the file is still there when it is read
  have hread : emptied.read spot.path = .ok bytes := by
    refine Store.read_eq_ok_iff.2 ⟨spot.route, (hg.route? _ _).trans (hpath .follow), ?_⟩
    rw [hstat, if_neg (Spot.route_ne_spare h), hb]
  cases hnew.symm.trans hread
  obtain ⟨second, hsecond, hg', hstat'⟩ := Store.write_file
    ((hg.route? _ _).trans (hspare .create)) (hg.stat_folder_iff.2 h.folder) rfl (by rw [hstat, if_pos rfl]; rfl) bytes
  cases hfull.symm.trans hsecond
  refine ⟨hspare, hg.trans hg', fun route => ?_⟩
  rw [hstat', hstat]
  by_cases he : route = spot.spare
  · rw [if_pos he, if_pos he]
  · rw [if_neg he, if_neg he, if_neg he]

namespace Session

/-- What a run with backups over the files at `spots` keeps, where `events` is what it logs. -/
structure Backs (spots : List Spot) (before after : Store) (events : List Event) : Prop where
  grown : Grown before after
  /-- Only these files are written. -/
  named (file : String) (h : .updated file ∈ events) : file ∈ spots.map (·.path)
  /-- A file that is written has its bytes in the backup. -/
  saved (spot : Spot) (hs : spot ∈ spots) (h : .updated spot.path ∈ events) :
    ∃ bytes, before.stat spot.route = some (.file bytes) ∧
      (∀ access, before.route? access spot.path = some spot.route) ∧
      after.stat spot.spare = some (.file bytes) ∧
      ∀ access, before.route? access (Path.backup spot.path) = some spot.spare
  /-- Nothing changes but files that are written, and backups. -/
  kept (route : List String) (h : after.stat route ≠ before.stat route) :
    ∃ spot ∈ spots, (.updated spot.path ∈ events ∧ route = spot.route) ∨
      (route = spot.spare ∧ before.route? .inspect (Path.backup spot.path) = some spot.spare)

/-- Nothing is kept where nothing changes. -/
theorem Backs.refl (spots : List Spot) (store : Store) {events : List Event}
    (h : ∀ file, .updated file ∉ events) : Backs spots store store events :=
  ⟨.refl store, fun file hm => absurd hm (h file), fun spot _ hm => absurd hm (h spot.path),
    fun _ hne => absurd rfl hne⟩

/-- Only the files that are written matter in the log. -/
theorem Backs.congr {spots : List Spot} {before after : Store} {events events' : List Event}
    (h : Backs spots before after events)
    (he : ∀ file, .updated file ∈ events' ↔ .updated file ∈ events) :
    Backs spots before after events' where
  grown := h.grown
  named file hm := h.named file ((he file).1 hm)
  saved spot hs hm := h.saved spot hs ((he _).1 hm)
  kept route hne := by
    obtain ⟨spot, hs, hk⟩ := h.kept route hne
    exact ⟨spot, hs, hk.imp_left fun ⟨hu, hr⟩ => ⟨(he _).2 hu, hr⟩⟩

/-- A run over one file and then one over others. -/
theorem Backs.cons {spot : Spot} {spots : List Spot} {before middle after : Store}
    {first rest : List Event} (hfirst : Backs [spot] before middle first)
    (hrest : Backs spots middle after rest) (hin : ∀ other ∈ spot :: spots, other.In before)
    (hp : ((spot :: spots).map (·.path)).Nodup) (hr : ((spot :: spots).map (·.route)).Nodup) :
    Backs (spot :: spots) before after (first ++ rest) := by
  rw [List.map_cons, List.nodup_cons] at hp hr
  have hroute : ∀ other ∈ spots, other.route ≠ spot.route := fun other hm he =>
    hr.1 (List.mem_map.2 ⟨other, hm, he⟩)
  -- each run writes its own files
  have hspot : .updated spot.path ∉ rest := fun h => hp.1 (hrest.named _ h)
  have hothers : ∀ other ∈ spots, .updated other.path ∉ first := fun other hm h => by
    have hpath := List.mem_singleton.1 (hfirst.named _ h)
    exact hp.1 (List.mem_map.2 ⟨other, hm, hpath⟩)
  -- the others do not touch the backup of the first, nor the first the others
  have hspare : after.stat spot.spare = middle.stat spot.spare := by
    by_contra hne
    obtain ⟨other, hm, ⟨-, he⟩ | ⟨he, -⟩⟩ := hrest.kept _ hne
    · exact Spot.route_ne_spare (hin other (List.mem_cons_of_mem _ hm)) he.symm
    · exact hroute other hm (Spot.route_eq_of_spare_eq he).symm
  have hsame : ∀ other ∈ spots, middle.stat other.route = before.stat other.route := by
    intro other hm
    by_contra hne
    obtain ⟨only, honly, hkept⟩ := hfirst.kept _ hne
    cases List.mem_singleton.1 honly
    rcases hkept with ⟨-, he⟩ | ⟨he, -⟩
    · exact hroute other hm he
    · exact Spot.route_ne_spare (hin other (List.mem_cons_of_mem _ hm)) he
  constructor
  case grown => exact hfirst.grown.trans hrest.grown
  case named =>
    intro file h
    rcases List.mem_append.1 h with h | h
    · exact List.mem_cons.2 (.inl (List.mem_singleton.1 (hfirst.named file h)))
    · exact List.mem_cons_of_mem _ (hrest.named file h)
  case saved =>
    intro other hm h
    rcases List.mem_cons.1 hm with rfl | hm
    · have hf := (List.mem_append.1 h).resolve_right hspot
      obtain ⟨bytes, hb, ho, hs, hbackup⟩ := hfirst.saved other (by simp) hf
      exact ⟨bytes, hb, ho, hspare.trans hs, hbackup⟩
    · have hf := (List.mem_append.1 h).resolve_left (hothers other hm)
      obtain ⟨bytes, hb, ho, hs, hbackup⟩ := hrest.saved other hm hf
      exact ⟨bytes, (hsame other hm).symm.trans hb,
        fun access => (hfirst.grown.route? _ _).symm.trans (ho access), hs,
        fun access => (hfirst.grown.route? _ _).symm.trans (hbackup access)⟩
  case kept =>
    intro route hne
    by_cases hm : middle.stat route = before.stat route
    · obtain ⟨other, ho, hk⟩ := hrest.kept route (hm ▸ hne)
      refine ⟨other, List.mem_cons_of_mem _ ho, hk.imp ?_ ?_⟩
      · exact fun ⟨hu, he⟩ => ⟨List.mem_append_right _ hu, he⟩
      · exact fun ⟨he, hb⟩ => ⟨he, (hfirst.grown.route? _ _).symm.trans hb⟩
    · obtain ⟨only, honly, hk⟩ := hfirst.kept route hm
      cases List.mem_singleton.1 honly
      exact ⟨spot, by simp, hk.imp_left fun ⟨hu, he⟩ => ⟨List.mem_append_left _ hu, he⟩⟩

/-- With backups, a file that is written has its bytes copied before. -/
theorem exec_replace_backs {s : Session} {spot : Spot} {bytes : ByteArray} (hin : spot.In s.store)
    (hl : ∀ target, s.store.lookup .inspect (Path.backup spot.path) ≠ .ok (.link target))
    (ho : ∀ access, s.store.route? access spot.path = some spot.route)
    (hb : s.store.stat spot.route = some (.file bytes)) (output : Text) :
    ∃ result t events,
      exec (workspace.replace true spot.path output) s = (result, t) ∧
        t.log = s.log ++ events ∧ Backs [spot] s.store t.store events := by
  rw [exec_replace_true]
  cases hc : s.store.copy spot.path (Path.backup spot.path) with
  | error fault => exact ⟨_, s, [], rfl, (List.append_nil _).symm, .refl _ _ nofun⟩
  | ok copied =>
      obtain ⟨hspare, hg, hstat⟩ := hin.copy hl hb hc
      have hroute : copied.stat spot.route = some (.file bytes) := by
        rw [hstat, if_neg (Spot.route_ne_spare hin), hb]
      obtain ⟨after, hw, hg', hstat'⟩ := Store.write_file
        ((hg.route? _ _).trans (ho .create)) (hg.stat_folder_iff.2 hin.folder) rfl
        (by rw [hroute]; rfl) (Text.toUTF8 output)
      dsimp only
      rw [exec_replace_false, logged_store, hw]
      refine ⟨_, _, [.backedUp (Path.backup spot.path), .updated spot.path], rfl, ?_, ?_⟩
      · simp [logged]
      constructor
      case grown => exact hg.trans hg'
      case named => simp
      case saved =>
        intro other hm _
        cases List.mem_singleton.1 hm
        refine ⟨bytes, hb, ho, ?_, hspare⟩
        rw [logged_store, hstat', if_neg (Spot.route_ne_spare hin).symm, hstat, if_pos rfl]
      case kept =>
        intro route hne
        refine ⟨spot, by simp, ?_⟩
        rw [logged_store, hstat', hstat] at hne
        by_cases he : route = spot.route
        · exact .inl ⟨by simp, he⟩
        · by_cases he' : route = spot.spare
          · exact .inr ⟨he', hspare .inspect⟩
          · rw [if_neg he, if_neg he'] at hne
            exact absurd rfl hne

/-- With backups, a file that is restyled has its bytes copied before. -/
theorem exec_restyleFile_backs (feature : Feature) {s : Session} {spot : Spot}
    (hin : spot.In s.store)
    (hl : ∀ target, s.store.lookup .inspect (Path.backup spot.path) ≠ .ok (.link target)) :
    ∃ result t events,
      exec (workspace.restyleFile feature true spot.path) s = (result, t) ∧
        t.log = s.log ++ events ∧ Backs [spot] s.store t.store events := by
  rw [exec_restyleFile]
  cases hr : s.store.read spot.path with
  | error fault => exact ⟨_, s, [], rfl, (List.append_nil _).symm, .refl _ _ nofun⟩
  | ok bytes =>
      dsimp only
      obtain ⟨route, ho, hb⟩ := Store.read_eq_ok_iff.1 hr
      obtain ⟨rfl, hopen⟩ := hin.leads.eq ho
      cases feature.restyleBytes spot.path bytes with
      | error e => exact ⟨_, s, [], rfl, (List.append_nil _).symm, .refl _ _ nofun⟩
      | ok out =>
          dsimp only
          generalize hnotes : out.report.notes.map Event.note = notes
          have hquiet : ∀ file, .updated file ∉ notes := by simp [← hnotes]
          split
          · obtain ⟨result, t, events, he, hlog, hbacks⟩ :=
              exec_replace_backs (s := s.logged notes) hin hl hopen hb out.output
            refine ⟨result.map fun _ => out.report, t, notes ++ events, ?_, ?_, ?_⟩
            · rw [he]
              cases result <;> rfl
            · rw [hlog, logged, List.append_assoc]
            · exact hbacks.congr fun file => by simp [hquiet]
          · exact ⟨_, _, notes, rfl, rfl, .refl _ _ hquiet⟩

/-- With backups, the files that are restyled one after the other have their bytes copied before. -/
theorem exec_restyleAll_backs (feature : Feature) {s : Session} {spots : List Spot}
    (hin : ∀ spot ∈ spots, spot.In s.store)
    (hl : ∀ spot ∈ spots, ∀ target,
      s.store.lookup .inspect (Path.backup spot.path) ≠ .ok (.link target))
    (hp : (spots.map (·.path)).Nodup) (hr : (spots.map (·.route)).Nodup) :
    ∃ result t events,
      exec (workspace.restyleAll feature true (spots.map (·.path))) s = (result, t) ∧
        t.log = s.log ++ events ∧ Backs spots s.store t.store events := by
  induction spots generalizing s with
  | nil => exact ⟨.ok [], s, [], rfl, (List.append_nil _).symm, .refl _ _ nofun⟩
  | cons spot spots ih =>
      obtain ⟨hspot, hspots⟩ := List.forall_mem_cons.1 hin
      obtain ⟨hlink, hlinks⟩ := List.forall_mem_cons.1 hl
      rw [List.map_cons, exec_restyleAll_cons]
      obtain ⟨result, t, first, he, hlog, hfirst⟩ :=
        exec_restyleFile_backs (s := s.logged [.processing spot.path]) feature hspot hlink
      have hquiet {events : List Event} (file : String) :
          .updated file ∈ .processing spot.path :: events ↔ .updated file ∈ events := by simp
      rw [logged_store] at hfirst
      rcases result with e | report
      · rw [he]
        refine ⟨.error e, t, .processing spot.path :: first, rfl, ?_, ?_⟩
        · simp [hlog, logged]
        · have hrest : Backs spots t.store t.store [] := .refl spots t.store nofun
          have hall := hfirst.cons hrest hin hp hr
          rw [List.append_nil] at hall
          exact hall.congr hquiet
      · have hg := hfirst.grown
        obtain ⟨reports, u, rest, he', hlog', hrest⟩ := ih (s := t)
          (fun other hm => (hspots other hm).grown hg)
          (fun other hm target ht => hlinks other hm target (hg.lookup_link_iff.1 ht))
          (List.nodup_cons.1 hp).2 (List.nodup_cons.1 hr).2
        refine ⟨reports.map (report :: ·), u, .processing spot.path :: (first ++ rest), ?_, ?_, ?_⟩
        · rw [he]
          dsimp only
          rw [he']
          cases reports <;> rfl
        · simp [hlog, hlog', logged]
        · exact (hfirst.cons hrest hin hp hr).congr hquiet

end Session

/-- The files that a search finds; none when it fails. -/
def Store.discovered (store : Store) (dir : String) : List String :=
  (store.discover dir).toOption.getD []

/-- **A run with backups** leaves the bytes of every file it writes in the backup, and changes
nothing but these files and backups, provided that no link stands where a backup goes.  It does not
matter how the run ends. -/
theorem Store.run_with_backups {store : SoundStore} {dir : String} (feature : Feature)
    (hd : store.isFolder dir = true)
    (hl : ∀ file ∈ store.discovered dir, ∀ target,
      store.lookup .inspect (Path.backup file) ≠ .ok (.link target)) :
    (∀ file ∈ store.discovered dir, .updated file ∈ (store.run feature true dir).2.log →
      ∃ bytes, store.read file = .ok bytes ∧
        (store.run feature true dir).2.store.read (Path.backup file) = .ok bytes) ∧
    ∀ route, (store.run feature true dir).2.store.stat route ≠ store.stat route →
      ∃ file ∈ store.discovered dir,
        (.updated file ∈ (store.run feature true dir).2.log ∧
          store.route? .inspect file = some route) ∨
        store.route? .inspect (Path.backup file) = some route := by
  cases hf : store.discover dir with
  | error e =>
      have hrun : (store.run feature true dir).2.store = store := by rw [run_eq, hf]
      rw [hrun, discovered, hf]
      exact ⟨nofun, fun _ hne => absurd rfl hne⟩
  | ok files =>
      have hfiles : store.discovered dir = files := by rw [discovered, hf]; rfl
      rw [hfiles] at hl ⊢
      obtain ⟨spots, rfl, hp, hr, hin⟩ := exists_spots hd hf
      obtain ⟨first, last, result, t, he, hrun, hquiet⟩ := run_of_discover hf feature true
      obtain ⟨result', t', events, he', hlog, hbacks⟩ :=
        Session.exec_restyleAll_backs (s := ⟨store, first⟩) feature hin
          (fun spot hm => hl _ (List.mem_map_of_mem hm)) hp hr
      cases he.symm.trans he'
      have hupdated (file : String) :
          .updated file ∈ (store.run feature true dir).2.log ↔ .updated file ∈ events := by
        simp [hrun, Session.logged, hlog, hquiet file]
      have hstore : (store.run feature true dir).2.store = t.store := by rw [hrun]; rfl
      simp only [hupdated, hstore]
      constructor
      · intro file hm hu
        obtain ⟨spot, hspot, rfl⟩ := List.mem_map.1 hm
        obtain ⟨bytes, hb, ho, hsaved, hbackup⟩ := hbacks.saved spot hspot hu
        exact ⟨bytes, read_eq_ok_iff.2 ⟨_, ho .follow, hb⟩,
          read_eq_ok_iff.2 ⟨_, (hbacks.grown.route? _ _).trans (hbackup .follow), hsaved⟩⟩
      · intro route hne
        obtain ⟨spot, hspot, ⟨hu, rfl⟩ | ⟨rfl, hb⟩⟩ := hbacks.kept route hne
        · obtain ⟨-, -, ho, -⟩ := hbacks.saved spot hspot hu
          exact ⟨spot.path, List.mem_map_of_mem hspot, .inl ⟨hu, ho .inspect⟩⟩
        · exact ⟨spot.path, List.mem_map_of_mem hspot, .inr hb⟩

/-- The second file is rejected, and the first one has its bytes in place of an older backup. -/
theorem Store.run_with_backups_sample :
    ∃ store : SoundStore, store.isFolder "." = true ∧
      (store.run .clean true ".").1.toOption = none ∧
      ∃ bytes, store.read "./a.scss" = .ok bytes ∧
        (store.run .clean true ".").2.store.read "./a.scss.bak" = .ok bytes := by
  let store : SoundStore := ⟨⟨.folder [("a.scss", .file ".a\x7b\x7d".toUTF8),
    ("a.scss.bak", .file "older".toUTF8), ("b.scss", .file ".b\x7b".toUTF8)], []⟩, by
      decide +kernel⟩
  have hd : store.isFolder "." = true := by decide +kernel
  have hfiles : store.discovered "." = ["./a.scss", "./b.scss"] := by decide +kernel
  have hl : ∀ file ∈ store.discovered ".", ∀ target,
      store.lookup .inspect (Path.backup file) ≠ .ok (.link target) := by
    rw [hfiles]
    intro file hm target ht
    obtain ⟨route, hr, hlink⟩ := lookup_eq_link_iff.1 ht
    rcases List.mem_pair.1 hm with rfl | rfl
    · have ha : store.route? .inspect (Path.backup "./a.scss") = some ["a.scss.bak"] := by
        decide +kernel
      cases ha.symm.trans hr
      cases hlink
    · have hb : store.route? .inspect (Path.backup "./b.scss") = some ["b.scss.bak"] := by
        decide +kernel
      cases hb.symm.trans hr
      cases hlink
  have hupdated : .updated "./a.scss" ∈ (store.run .clean true ".").2.log := by decide +kernel
  refine ⟨store, hd, by decide +kernel, ?_⟩
  exact (run_with_backups .clean hd hl).1 "./a.scss" (by rw [hfiles]; decide) hupdated

/-- **A link in the place of a backup** makes a run lose a file, or write to one that is none of its
own.  Here both files are written, the backup of the first is no copy of what it was, and a file that
is no sheet has changed. -/
theorem Store.run_with_backups_through_link :
    ∃ store : SoundStore, store.toStore =
        ⟨.folder [("a.scss", .file ".a\x7b\x7d.b\x7bc:d\x7d".toUTF8), ("a.scss.bak", .link "a.scss"),
          ("b.scss", .file ".b\x7b\x7d".toUTF8), ("b.scss.bak", .link "notes.txt"),
          ("notes.txt", .file "notes".toUTF8)], []⟩ ∧
      let after := (store.run .clean true ".").2
      store.isFolder "." = true ∧
      store.discovered "." = ["./a.scss", "./b.scss"] ∧
      .updated "./a.scss" ∈ after.log ∧
      (store.read "./a.scss").toOption = some ".a\x7b\x7d.b\x7bc:d\x7d".toUTF8 ∧
      (after.store.read "./a.scss.bak").toOption = some ".b\x7bc:d\x7d".toUTF8 ∧
      (store.read "notes.txt").toOption = some "notes".toUTF8 ∧
      (after.store.read "notes.txt").toOption = some ".b\x7b\x7d".toUTF8 := by
  refine ⟨⟨_, ?_⟩, rfl, ?_⟩
  · decide +kernel
  · decide +kernel

end Restyle
