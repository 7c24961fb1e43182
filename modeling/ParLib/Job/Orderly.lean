import ParLib.Job.System

/-!
# Orderly runs

The leader learns of a division and of a finished job by messages that may be
old when it reads them, and `OnAssignment` and `OnAssignmentFinished` overwrite
the record of a client whatever it says. A run is orderly if no message is read
out of date. Then whoever has work is backed: the leader records some for it,
or an assignment that will make it do so is on its way.
-/

namespace ParLib.Job

set_option autoImplicit false

open Foundations

namespace System

def Known (s : System) (leader k : NetworkId) : Prop := k = leader ∨ k ∈ (s.net leader).clients

/-- New work is on its way to the node. -/
def Awaits (s : System) (x : NetworkId) : Prop := ∃ p ∈ s.packets, p.dst = x ∧ p.newWork ≠ []

/-- The node has work, or is about to, or the leader has yet to hear that it is done. -/
def Active (s : System) (leader x : NetworkId) : Prop :=
  s.Computing x ∨ s.Awaits x ∨
    ∃ p ∈ s.packets, p.src = x ∧ p.dst = leader ∧ ∃ best, p.msg = .assignmentFinished best

/-- The leader records work for the client, or will once it has read what was sent. -/
def Backed (s : System) (leader k : NetworkId) (sent : List Packet) : Prop :=
  s.recorded leader k ≠ [] ∨ ∃ q ∈ sent, q.dst = leader ∧ ∃ v, q.write? k = some v ∧ v ≠ []

/-- Nobody computes while new work of its own arrives; the leader records no work as
done unless it is, and a repeated table gives out no job that the leader has cleared. -/
def UpToDate (s : System) (leader : NetworkId) (p : Packet) (others : List Packet) : Prop :=
  match p.msg with
  | .stackAssignment assign resent =>
    (s.Computing p.dst → p.newWork = []) ∧
      (p.dst = leader → ∀ k, assign.find? k = some [] → s.recorded leader k = []) ∧
      (resent = true → ¬ s.Computing p.dst → assign.getAssignment p.dst ≠ [] →
        s.recorded leader p.dst ≠ [])
  | .assignmentFinished _ => p.dst = leader →
    ¬ s.Computing p.src ∧ (∀ q ∈ others, q.dst = p.src → q.newWork = []) ∧
      ∀ q ∈ others, ¬ (q.src = p.src ∧ q.dst = leader)
  | .terminate | .divideWith _ => True

theorem forall_find?_iff {assign : StackAssignment} {P : NetworkId → Prop} :
    (∀ k, assign.find? k = some [] → P k) ↔
      ∀ k ∈ assign.getClients, assign.getAssignment k = [] → P k := by
  refine forall_congr' fun k => ?_
  rw [StackAssignment.mem_getClients, StackAssignment.getAssignment]
  cases assign.find? k <;> simp

instance (s : System) (leader : NetworkId) (assign : StackAssignment) :
    Decidable (∀ k, assign.find? k = some [] → s.recorded leader k = []) :=
  decidable_of_iff' _ forall_find?_iff

instance (s : System) (leader : NetworkId) (others : List Packet) :
    ∀ p, Decidable (s.UpToDate leader p others)
  | ⟨_, _, .stackAssignment _ _⟩ => inferInstanceAs (Decidable ((_ → _) ∧ (_ → _) ∧ (_ → _)))
  | ⟨_, _, .assignmentFinished _⟩ => inferInstanceAs (Decidable (_ → _ ∧ _ ∧ _))
  | ⟨_, _, .terminate⟩ | ⟨_, _, .divideWith _⟩ => inferInstanceAs (Decidable True)

/-- No node fails, and no message is read out of date. -/
def Orderly (leader : NetworkId) (s : System) : Action → Prop
  | .receive id src => ∀ p, s.packets.find? (Packet.onConnection src id) = some p →
    s.UpToDate leader p (s.packets.eraseP (Packet.onConnection src id))
  | .crash _ | .discard _ _ => False
  | _ => True

instance (s : System) (leader : NetworkId) : DecidablePred (s.Orderly leader)
  | .receive _ _ => inferInstanceAs (Decidable (∀ p ∈ List.find? _ s.packets, _))
  | .crash _ | .discard _ _ => inferInstanceAs (Decidable False)
  | .first _ _ _ | .compute _ | .endRead _ | .connect _ _ => inferInstanceAs (Decidable True)

/-- Connections that both ends know of. -/
structure Wired (leader : NetworkId) (s : System) : Prop extends s.Linked leader where
  symm : ∀ x y, y ∈ (s.net x).clients → x ∈ (s.net y).clients

/-- The invariant of orderly runs. -/
structure Sound (leader : NetworkId) (s : System) : Prop where
  wired : s.Wired leader
  fresh : (s.comp leader).state = .initial → s.packets = [] ∧ ∀ x, ¬ s.Computing x
  idle : ∀ x, ¬ s.Computing x → s.stack x = []
  route : ∀ p ∈ s.packets, p.src ≠ p.dst
  listed : ∀ k, (s.comp leader).Listed k → s.Known leader k
  writes : ∀ p ∈ s.packets, ∀ k v, p.write? k = some v → s.Known leader k
  requests : ∀ p ∈ s.packets, ∀ id, p.msg = .divideWith id →
    s.Known leader id ∧ id ≠ p.dst ∧ p.dst ≠ leader
  backed : ∀ x, s.Active leader x → s.Backed leader x s.packets
  assigned : ∀ pre p post, s.packets = pre ++ p :: post → p.dst = leader →
    (∃ assign resent, p.msg = .stackAssignment assign resent) → s.Backed leader p.src pre
  ended : ((s.comp leader).state = .finished ∨ ∃ p ∈ s.packets, p.msg = .terminate) →
    ∀ k, s.recorded leader k = []

section Facts

variable {leader : NetworkId} {s : System}

theorem Backed.mono {k : NetworkId} {sent sent' : List Packet} (h : s.Backed leader k sent)
    (hsub : ∀ q ∈ sent, q ∈ sent') : s.Backed leader k sent' :=
  h.imp_right fun ⟨q, hq, hrest⟩ => ⟨q, hsub q hq, hrest⟩

theorem Wired.of_net {s' : System} (h : s.Wired leader) (hnet : s'.net = s.net) :
    s'.Wired leader where
  toLinked := h.toLinked.of_net hnet
  symm := by
    rw [hnet]
    exact h.symm

theorem Known.of_net {s' : System} {k : NetworkId} (h : s.Known leader k)
    (hnet : s'.net = s.net) : s'.Known leader k := by
  rwa [Known, hnet]

theorem isAssignment_of_write {p : Packet} {k : NetworkId} {v : List Path}
    (h : p.write? k = some v) (hv : v ≠ []) :
    ∃ assign resent, p.msg = .stackAssignment assign resent := by
  cases hmsg : p.msg with
  | stackAssignment assign resent => exact ⟨assign, resent, rfl⟩
  | assignmentFinished best =>
    rw [Packet.write?, hmsg] at h
    obtain ⟨-, h⟩ := Option.ite_none_right_eq_some.mp h
    exact absurd (Option.some.inj h).symm hv
  | terminate | divideWith id =>
    rw [Packet.write?, hmsg] at h
    cases h

theorem Sound.known_of_recorded (h : s.Sound leader) {k : NetworkId}
    (hk : s.recorded leader k ≠ []) : s.Known leader k :=
  h.listed k (Computation.listed_of_recorded hk)

theorem Sound.known_of_backed (h : s.Sound leader) {k : NetworkId}
    (hk : s.Backed leader k s.packets) : s.Known leader k := by
  rcases hk with hk | ⟨q, hq, -, v, hv, -⟩
  · exact h.known_of_recorded hk
  · exact h.writes q hq k v hv

theorem Sound.known_of_active (h : s.Sound leader) {x : NetworkId} (hx : s.Active leader x) :
    s.Known leader x := h.known_of_backed (h.backed x hx)

/-- When nothing is recorded, no assignment is on its way to the leader: the first one
would have come from a client with no work. -/
theorem Sound.no_assignment (h : s.Sound leader) (hnone : ∀ k, s.recorded leader k = [])
    {p : Packet} (hp : p ∈ s.packets) (hdst : p.dst = leader) :
    ¬ ∃ assign resent, p.msg = .stackAssignment assign resent := by
  have hfirst : ∀ n pre p post, pre.length = n → s.packets = pre ++ p :: post → p.dst = leader →
      ¬ ∃ assign resent, p.msg = .stackAssignment assign resent := by
    intro n
    induction n using Nat.strongRecOn with
    | ind n ih =>
      intro pre p post hlen hsplit hdst hassign
      rcases h.assigned pre p post hsplit hdst hassign with hrec | ⟨q, hq, hqdst, v, hv, hvne⟩
      · exact hrec (hnone p.src)
      · obtain ⟨pre', post', rfl⟩ := List.append_of_mem hq
        refine ih pre'.length ?_ pre' q (post' ++ p :: post) rfl ?_ hqdst
          (isAssignment_of_write hv hvne)
        · simp at hlen
          omega
        · rw [hsplit]
          simp
  obtain ⟨pre, post, hsplit⟩ := List.append_of_mem hp
  exact hfirst pre.length pre p post rfl hsplit hdst

theorem Sound.not_active (h : s.Sound leader) (hnone : ∀ k, s.recorded leader k = [])
    (x : NetworkId) : ¬ s.Active leader x := by
  intro hx
  rcases h.backed x hx with hrec | ⟨q, hq, hdst, v, hv, hvne⟩
  · exact hrec (hnone x)
  · exact h.no_assignment hnone hq hdst (isAssignment_of_write hv hvne)

end Facts

end System

end ParLib.Job
