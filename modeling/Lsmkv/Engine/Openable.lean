import Lsmkv.Engine.Consistent

/-!
# What can be opened again

`Engine::open` takes a table that is there without a manifest for the sign of a lost manifest and
refuses the directory.  Every run leaves a directory it can open but for that one shape
(`open_ok_iff`).  A process killed inside the first flush, after its table was renamed and before
the first manifest was, leaves just that shape (`open_refused_after_kill`).
-/

namespace Lsmkv

/-- **When a store can be opened again.**  Whatever happened before, opening the directory succeeds
if and only if it has a manifest or no tables. -/
theorem open_ok_iff {w : World} (hw : w.Runs) (hdown : w.engine = none) (config : Config) :
    (∃ e, (Engine.openPlan w.dir config).2 = .ok e)
      ↔ w.dir.manifest ≠ none ∨ ∀ n, n ∉ w.dir.tables := by
  obtain ⟨hsound, hlogs⟩ := (consistent_of_reachable hw).closed hdown
  constructor
  · rintro ⟨e, he⟩
    exact manifest_of_openPlan (Prod.ext rfl he)
  · intro h
    obtain ⟨ops, e, hplan, -⟩ := openPlan_spec hsound hlogs config h
    exact ⟨e, by rw [hplan]⟩

/-- A session killed before its first flush gave the table its name. -/
def killedBeforeRename : List Action :=
  List.flatten [[.openStore ⟨.always, 100, 4, 10⟩], Action.alwaysWrite 1 [1] (some [7]),
    Action.rotateAndTake 1, [.kill fun _ => 0]]

theorem open_ok_iff_killedBeforeRename :
    ∃ w : World, w.engine = none ∧ w.dir.partials.keys = [3]
      ∧ ∃ e, (Engine.openPlan w.dir ⟨.always, 100, 4, 10⟩).2 = .ok e := by
  let test (w : World) : Bool :=
    w.engine.isNone && w.dir.partials.keys = [3] && w.dir.tables.keys = []
  obtain ⟨w, hw, htest⟩ : ∃ w, w.Runs ∧ test w = true :=
    World.exists_of_run (fun _ _ _ => trivial)
      (by decide +kernel : (run World.step (fun _ _ => true) World.initial killedBeforeRename).map
        test = some true)
  simp only [test, Bool.and_eq_true, decide_eq_true_iff, Option.isNone_iff_eq_none] at htest
  obtain ⟨⟨hdown, hpartials⟩, htables⟩ := htest
  refine ⟨w, hdown, hpartials, (open_ok_iff hw hdown _).mpr (Or.inr fun n hn => ?_)⟩
  rw [AList.mem_keys, htables] at hn
  cases hn

/-- A session killed when its first flush has renamed the table and stored no manifest yet. -/
def killedAfterRename : List Action :=
  List.flatten [[.openStore ⟨.always, 100, 4, 10⟩], Action.alwaysWrite 1 [1] (some [7]),
    Action.rotateAndTake 1, [.rename .flush, .kill fun _ => 0]]

/-- **A kill can make the store unopenable**, with no operation failing and no session ending
otherwise. -/
theorem open_refused_after_kill :
    ¬ ∀ w, Reachable World.step (fun _ action => action.faultless ∧ ¬ action.isClose)
        (· = World.initial) w →
      w.engine = none → ∀ config, ∃ e, (Engine.openPlan w.dir config).2 = .ok e := by
  intro hall
  let test (w : World) : Bool :=
    w.engine.isNone && w.dir.manifest = none && w.dir.tables.keys = [3]
  obtain ⟨w, hw, htest⟩ : ∃ w, Reachable World.step
      (fun _ action => action.faultless ∧ ¬ action.isClose) (· = World.initial) w
        ∧ test w = true :=
    World.exists_of_run (fun _ _ h => of_decide_eq_true h)
      (by decide +kernel : (run World.step
        (fun _ action => decide (action.faultless ∧ ¬ action.isClose)) World.initial
        killedAfterRename).map test = some true)
  simp only [test, Bool.and_eq_true, decide_eq_true_iff, Option.isNone_iff_eq_none] at htest
  obtain ⟨⟨hdown, hmanifest⟩, htables⟩ := htest
  obtain ⟨e, he⟩ := hall w hw hdown ⟨.always, 100, 4, 10⟩
  have htable : 3 ∈ w.dir.tables := by
    rw [AList.mem_keys, htables]
    exact List.mem_singleton_self 3
  rw [openPlan_refused _ hmanifest htable] at he
  cases he

end Lsmkv
