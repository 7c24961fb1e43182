import ParLib.Job.Answer
import ParLib.Job.ByteSystem

/-!
# Announced values among bytes

Nodes that exchange bytes find values of paths only, in spite of the lengths
and numbers that are read back from the bytes.
-/

namespace ParLib.Job.ByteSystem

set_option autoImplicit false

open Foundations

/-- Nodes hold, and packets announce, values of paths only; no node has less than `least`. -/
structure Genuine (M : Matrix) (least : NetworkId → Int32) (s : ByteSystem) : Prop where
  comp : ∀ x, (s.comp x).Genuine M (least x)
  packets : ∀ p ∈ s.packets, ∀ scratch outside msg,
    Message.decode scratch outside p.msg = some msg → msg.Genuine M

variable {M : Matrix} {least : NetworkId → Int32} {s t : ByteSystem}

theorem genuine_start (M : Matrix) : (start M).Genuine M fun _ => 0 where
  comp _ := Computation.genuine_new M
  packets := by simp [start]

theorem genuine_decode (hM : M.size < 2 ^ 31) {src : NetworkId} {q : Send} {p : BytePacket}
    (hcarries : Carries src q p) (hpaths : q.msg.OnPaths M) (hq : q.msg.Genuine M)
    {scratch : Wire.Bytes} {outside : Int → Byte} {msg : Message}
    (hmsg : Message.decode scratch outside p.msg = some msg) : msg.Genuine M := by
  have hsame := sameAs_decode hM hcarries hpaths hmsg
  cases msg with
  | assignmentFinished best =>
    cases hsent : q.msg with
    | assignmentFinished best' =>
      rw [hsent] at hsame hq
      obtain rfl : best = best' := hsame
      exact hq
    | stackAssignment assign resent | terminate | divideWith id =>
      rw [hsent] at hsame
      exact hsame.elim
  | stackAssignment assign resent | terminate | divideWith id => trivial

theorem Genuine.commit (hM : M.size < 2 ^ 31) (h : s.Genuine M least) {id : NetworkId}
    {r : Computation × List Send} (hr : r.1.Genuine M (least id) ∧ ∀ q ∈ r.2, q.msg.Genuine M)
    (hpaths : ∀ q ∈ r.2, q.msg.OnPaths M) {sent : List BytePacket}
    (hsent : r.2.Forall₂ (Carries id) sent) : (s.commit id r.1 sent).Genuine M least := by
  obtain ⟨hc, hmsgs⟩ := hr
  constructor
  · intro x
    have hcomp : (s.commit id r.1 sent).comp = Function.update s.comp id r.1 := rfl
    rw [hcomp]
    obtain rfl | hne := eq_or_ne x id
    · rwa [Function.update_self]
    · rw [Function.update_of_ne hne]
      exact h.comp x
  · intro p hp scratch outside msg hmsg
    cases List.mem_append.mp hp with
    | inl hp => exact h.packets p hp scratch outside msg hmsg
    | inr hp =>
      obtain ⟨q, hq, hcarries⟩ := exists_carries hsent hp
      exact genuine_decode hM hcarries (hpaths q hq) (hmsgs q hq) hmsg

theorem Genuine.removed (h : s.Genuine M least) {p : BytePacket} {pre post : List BytePacket}
    (hpackets : s.packets = pre ++ p :: post) :
    { s with packets := pre ++ post }.Genuine M least where
  comp := h.comp
  packets q hq := h.packets q (mem_of_mem_removed hpackets hq)

theorem Genuine.step (hM : M.size < 2 ^ 31) (h : s.Genuine M least) (hpaths : s.OnPaths M)
    (hstep : s.Step t) : t.Genuine M least := by
  cases hstep with
  | first hr hsent =>
    exact h.commit hM ((h.comp _).firstStep (hpaths.comp _) (Computation.firstStep_cases hr))
      ((hpaths.comp _).firstStep hr).2 hsent
  | compute hr hsent =>
    exact h.commit hM ((h.comp _).computeStep (hpaths.comp _) hr)
      ((hpaths.comp _).computeStep hr).2 hsent
  | @receive net scratch outside p pre post sent r hpackets hdst hr hsent =>
    have hp : p ∈ s.packets := by
      rw [hpackets]
      exact List.mem_append_right pre List.mem_cons_self
    obtain ⟨-, hr⟩ := Option.ite_none_left_eq_some.mp hr
    split at hr
    · cases hr
      exact (h.removed hpackets).commit hM ⟨h.comp _, by simp⟩ (by simp) hsent
    · rename_i msg hmsg
      have hgenuine := h.packets p hp scratch outside msg hmsg
      have honPaths := hpaths.packets p hp scratch outside msg hmsg
      exact (h.removed hpackets).commit hM ((h.comp _).onMessage hgenuine hr)
        ((hpaths.comp _).onMessage honPaths hr).2 hsent
  | lose hpackets => exact h.removed hpackets

theorem Genuine.steps (hM : M.size < 2 ^ 31) (h : s.Genuine M least) (hs : Reachable M s)
    (hsteps : Relation.ReflTransGen Step s t) : t.Genuine M least := by
  induction hsteps with
  | refl => exact h
  | tail hsteps hstep ih => exact ih.step hM (Reachable.onPaths hM (hs.trans hsteps)) hstep

/-- What has been found so far is the least that there will be. -/
theorem Genuine.from_now (h : s.Genuine M least) :
    s.Genuine M fun x => (s.comp x).bestFound where
  comp x := ⟨(h.comp x).best, (h.comp x).found, Int32.le_refl _⟩
  packets := h.packets

end ParLib.Job.ByteSystem
