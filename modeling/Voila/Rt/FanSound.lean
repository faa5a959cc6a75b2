import Voila.Rt.FanOutSound

/-!
# Voila.Rt.FanSound

`chan.merge` and `chan.fan_out` together, and runs of them.
-/

namespace Voila.Rt

open Lib Program

/-- `merge`, of any inputs, and `fan_out`, to any number of outputs that it makes, work under any schedule. -/
theorem merge_and_fan_out {C E : Type*} {V : Type} [DecidableEq C] [DecidableEq E] [Inhabited V] :
    (∀ (n : Nat) (srcs : Fin n → C) (cap : C → Int), Merge.Works srcs cap E V) ∧
      ∀ (m : Int) (n : Nat) (cap : Int), FanOut.outputs m = .ok n → FanOut.Works n cap E V :=
  ⟨fun _ => Merge.works, fun _ _ cap made => FanOut.works (FanOut.outputs_pos made) cap⟩

theorem merge_and_fan_out_two :
    Merge.Works (fun i : Fin 2 => i) (fun _ => 1) Unit Nat ∧ FanOut.Works 2 1 Unit Nat :=
  ⟨merge_and_fan_out.1 2 _ _, (merge_and_fan_out (C := Fin 2)).2 2 2 1 rfl⟩

namespace Merge

/-- One channel given twice: a forwarder takes its first value, the other its second, and the second goes on
first. -/
def twice : List (Program.Move (Task Unit 2) (Port Unit) (Item Nat)) :=
  [.free (.env ()) (.sending (.src ()) (.val 1)), .run (.env ()) false,
    .free (.env ()) (.sending (.src ()) (.val 2)), .run (.env ()) false,
    .call (.forwarder 0), .run (.forwarder 0) false, .call (.forwarder 1), .run (.forwarder 1) false,
    .call (.forwarder 1), .run (.forwarder 1) false,
    .free (.env ()) (.receiving .out), .run (.env ()) false, .run (.forwarder 1) false,
    .call (.forwarder 0), .run (.forwarder 0) false,
    .free (.env ()) (.receiving .out), .run (.env ()) false]

/-- So the output does not have the order of that input, though it has no other. -/
theorem merge_reorders :
    ¬ ∀ tr (s : State Unit Unit Nat 2), Run (program fun _ => ()).step (start fun _ => 2) tr s →
      (received .out tr).Sublist (accepted (.src ()) tr) := by
  intro h
  have ends : (runSchedule (program fun _ : Fin 2 => ()).step twice (start fun _ => 2)).map
      (fun r => (accepted (.src ()) r.1, received .out r.1)) =
        some ([.val 1, .val 2], [.val 2, .val 1]) := by decide
  obtain ⟨⟨tr, s⟩, run, same⟩ := Option.map_eq_some_iff.mp ends
  obtain ⟨put, got⟩ := Prod.mk.inj same
  have order := h tr s (runSchedule_run twice run)
  dsimp only at put got
  rw [put, got] at order
  revert order
  decide

end Merge

end Voila.Rt
