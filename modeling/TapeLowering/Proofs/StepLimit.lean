import TapeLowering.Proofs.Crossing
import TapeLowering.Proofs.Truncation

/-!
# Programs on which the limit is reached

A machine that makes as many steps as the limit allows without leaving the program is cut off
(`State.run_of_long_passage`). So a text on which the machine stays for that long is all that is seen of a
program that begins with it (`Workspace.Lingers.run`).
-/

namespace TapeLowering

/-- A machine that does as many steps as the limit allows without leaving the program is cut off. -/
theorem State.run_of_long_passage {p : Program} {s t : State} {n limit : Nat}
    (hs : s.counter ≤ p.size) (h : Passage p 0 p.size n s t) (ht : t.counter < p.size)
    (hlimit : limit ≤ s.steps + n) (fuel : Nat) :
    (limit ≤ s.steps + fuel → ∃ u, s.run p (some limit) fuel = .failed (.stepLimitExceeded limit) u) ∧
    (s.steps + fuel < limit → ∃ u, s.run p (some limit) fuel = .running u) := by
  have hrunning : s.run p none n = .running t := (run_eq_running_iff hs).mpr ⟨h, ht⟩
  rw [run_some hs]
  constructor
  · intro hfuel
    obtain ⟨u, hu⟩ := exists_running_of_le hs hrunning (m := limit - s.steps) (by omega)
    rw [if_neg (by omega), hu]
    exact ⟨u, rfl⟩
  · intro hfuel
    rw [if_pos hfuel]
    exact exists_running_of_le hs hrunning (by omega)

namespace Workspace

variable {w w' : Workspace} {text text' : String} {count limit : Nat}

/-- A machine that crosses a text and stays on the next one has stayed on both. -/
theorem Crosses.lingers (h : w.Crosses text w') (h' : w'.Lingers text' count) :
    w.Lingers (text ++ text') count := by
  intro before after steps
  obtain ⟨n, s, hs, hcounter, rfl⟩ := h before (text' ++ after) steps
  obtain ⟨t, ht, hlo, hhi⟩ := h' (before ++ text) after s.steps
  have hbegin : (before ++ text).utf8ByteSize = before.utf8ByteSize + text.utf8ByteSize :=
    String.utf8ByteSize_append
  have hend : (text ++ text').utf8ByteSize = text.utf8ByteSize + text'.utf8ByteSize :=
    String.utf8ByteSize_append
  rw [hbegin, ← hcounter] at ht
  rw [← String.append_assoc] at hs
  rw [← String.append_assoc]
  refine ((hs.widen ?_ ?_).trans (ht.widen ?_ ?_)).take (n := count) ?_ ?_ ?_ <;> omega

/-- What is seen of a program that begins with a text on which the machine stays is that the limit on
the steps is reached. -/
theorem Lingers.run (h : w.Lingers text count) (hlimit : limit ≤ count) (after : String) (fuel : Nat) :
    let run := State.run (.ofText (text ++ after)) (some limit) fuel ⟨w, 0, 0⟩
    (limit ≤ fuel → ∃ s, run = .failed (.stepLimitExceeded limit) s) ∧
    (fuel < limit → ∃ s, run = .running s) := by
  intro run
  obtain ⟨t, ht, -, hhi⟩ := h "" after 0
  simp only [String.empty_append, String.utf8ByteSize_empty, Nat.zero_add] at ht hhi
  have hsize : text.utf8ByteSize ≤ (Program.ofText (text ++ after)).size := by
    rw [Program.size_ofText, String.utf8ByteSize_append]
    exact Nat.le_add_right _ _
  have hcut := State.run_of_long_passage (Nat.zero_le _) (ht.widen (Nat.le_refl 0) hsize)
    (Nat.lt_of_lt_of_le hhi hsize) (show limit ≤ 0 + count by rwa [Nat.zero_add]) fuel
  rwa [Nat.zero_add] at hcut

end Workspace

end TapeLowering
