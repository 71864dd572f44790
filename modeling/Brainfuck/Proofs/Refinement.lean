import Brainfuck.Proofs.FlatRun
import Brainfuck.Proofs.Simulation

/-! From the refinement of operations to the runs of programs on the machine. If one program refines
another, it halts with the same view where the other does; with a modulus above zero it halts
nowhere else, and both emit the same events in the same order. -/

namespace Brainfuck

open Machine

variable {m : Int} {Z : Observed m → Prop}

namespace Op.SimulatedBy

variable {live : Prop} {p q : Program} {s : State m}

/-- A program whose blocks match is simulated as a whole. -/
theorem exists_body {xs ys : List Op} (h : SimulatedBy live Z xs ys) {b : Body}
    (hb : Body.ofOps? xs = some b) :
    ∃ c, Body.ofOps? ys = some c ∧ b.SimulatedBy live (fun _ : Observed m => True) c := by
  obtain ⟨⟨c, cs⟩, hc, hfirst, hothers⟩ := h (Body.ofOps?_eq_some_iff.mp hb)
  cases hothers
  exact ⟨c, Body.ofOps?_eq_some_iff.mpr hc, hfirst⟩

theorem halts (h : SimulatedBy live Z p.ops q.ops) {v : View m} (hp : p.Halts s v) :
    q.Halts s v := by
  obtain ⟨b, hb⟩ := hp.exists_body
  obtain ⟨c, hc, hbc⟩ := h.exists_body hb
  obtain ⟨u, hu, hv, hsend⟩ := (Program.halts_iff hb).mp hp
  exact (Program.halts_iff hc).mpr ⟨u, hbc trivial trivial hu, hv, hsend⟩

theorem emits (h : SimulatedBy live Z p.ops q.ops) (hlive : live) {events : List Event}
    (hp : p.Emits s events) : q.Emits s events := by
  obtain ⟨b, hb⟩ := hp.exists_body
  obtain ⟨c, hc, hbc⟩ := h.exists_body hb
  obtain ⟨hrun, hsend⟩ := (Program.emits_iff hb).mp hp
  exact (Program.emits_iff hc).mpr ⟨hbc trivial hlive hrun, hsend⟩

end Op.SimulatedBy

namespace Op.Refines

variable {p q : Program}

theorem halts (h : Refines Z p.ops q.ops) {s : State m} {v : View m} (hp : p.Halts s v) :
    q.Halts s v :=
  h.forward.halts hp

theorem halts_iff (h : Refines Z p.ops q.ops) (hm : 0 < m) {s : State m} {v : View m} :
    p.Halts s v ↔ q.Halts s v :=
  ⟨h.forward.halts, (h.backward hm).halts⟩

theorem emits_iff (h : Refines Z p.ops q.ops) (hm : 0 < m) {s : State m} {events : List Event} :
    p.Emits s events ↔ q.Emits s events :=
  ⟨h.forward.emits hm, (h.backward hm).emits trivial⟩

end Op.Refines

end Brainfuck
