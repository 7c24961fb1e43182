import ParLib.Job.Orderly

/-!
# Every step of an orderly run is sound

One lemma for each kind of step: what it leaves backed was backed before, or is
backed by what the step itself records or sends.
-/

namespace ParLib.Job

set_option autoImplicit false

open Foundations ParallelStack

universe u

theorem exists_split_of_remove {α : Type u} {pre post pre' post' : List α} {p q : α}
    (h : pre ++ post = pre' ++ q :: post') :
    ∃ pre₀ post₀, pre ++ p :: post = pre₀ ++ q :: post₀ ∧ ∀ a ∈ pre₀, a = p ∨ a ∈ pre' := by
  rcases List.append_eq_append_iff.mp h with ⟨m, rfl, hm⟩ | ⟨m, rfl, hm⟩
  · refine ⟨pre ++ p :: m, post', by simp [hm], ?_⟩
    intro a ha
    simp only [List.mem_append, List.mem_cons] at ha ⊢
    tauto
  · cases m with
    | nil =>
      rw [List.nil_append] at hm
      refine ⟨pre' ++ [p], post', by simp [hm], ?_⟩
      intro a ha
      simp only [List.mem_append, List.mem_singleton] at ha
      tauto
    | cons b m =>
      rw [List.cons_append] at hm
      obtain ⟨rfl, rfl⟩ := List.cons.inj hm
      exact ⟨pre', m ++ p :: post, by simp, fun a ha => .inr ha⟩

theorem split_of_append {α : Type u} {l m pre post : List α} {q : α}
    (h : l ++ m = pre ++ q :: post) :
    (∃ post', l = pre ++ q :: post') ∨ (q ∈ m ∧ ∀ a ∈ l, a ∈ pre) := by
  rcases List.append_eq_append_iff.mp h with ⟨r, rfl, hr⟩ | ⟨r, rfl, hr⟩
  · right
    rw [hr]
    exact ⟨by simp, fun a ha => List.mem_append_left _ ha⟩
  · cases r with
    | nil =>
      right
      rw [List.nil_append] at hr
      rw [← hr]
      exact ⟨by simp, fun a ha => by simpa using ha⟩
    | cons b r =>
      rw [List.cons_append] at hr
      obtain ⟨rfl, -⟩ := List.cons.inj hr
      exact .inl ⟨r, rfl⟩

namespace System

variable {leader : NetworkId} {s : System}

/-- Reading a message keeps a client backed if the leader's record of it stays nonempty,
and becomes so by the message if that was what backed it. -/
theorem Backed.of_read {s' : System} {p : Packet} {k : NetworkId} {sent sent' : List Packet}
    (h : s.Backed leader k sent) (hsub : ∀ q ∈ sent, q = p ∨ q ∈ sent')
    (hrecorded : s.recorded leader k ≠ [] → s'.recorded leader k ≠ [])
    (hread : p.dst = leader → ∀ v, p.write? k = some v → v ≠ [] → s'.recorded leader k ≠ []) :
    s'.Backed leader k sent' := by
  rcases h with h | ⟨q, hq, hdst, v, hv, hne⟩
  · exact .inl (hrecorded h)
  · rcases hsub q hq with rfl | hq
    · exact .inl (hread hdst v hv hne)
    · exact .inr ⟨q, hq, hdst, v, hv, hne⟩

theorem newWork_of_write {p : Packet} {x : NetworkId} (hdst : p.dst = x) (h : p.newWork ≠ []) :
    ∃ v, p.write? x = some v ∧ v ≠ [] := by
  obtain ⟨src, dst, msg⟩ := p
  cases hdst
  cases msg with
  | stackAssignment assign resent =>
    cases resent with
    | true => exact absurd rfl h
    | false =>
      cases hfind : assign.find? dst with
      | none =>
        change assign.getAssignment dst ≠ [] at h
        rw [StackAssignment.getAssignment, hfind] at h
        exact absurd rfl h
      | some v =>
        change assign.getAssignment dst ≠ [] at h
        rw [StackAssignment.getAssignment, hfind] at h
        exact ⟨v, hfind, h⟩
  | assignmentFinished best | terminate | divideWith id => exact absurd rfl h

section Read

variable {pre post : List Packet} {p : Packet} (hpackets : s.packets = pre ++ p :: post)

include hpackets in
theorem Awaits.of_rest {x : NetworkId} {s' : System} (hrest : s'.packets = pre ++ post)
    (h : s'.Awaits x) : s.Awaits x := by
  obtain ⟨q, hq, hrest'⟩ := h
  rw [hrest] at hq
  exact ⟨q, mem_of_rest hpackets hq, hrest'⟩

include hpackets in
theorem Active.of_rest {x : NetworkId} {s' : System} (hrest : s'.packets = pre ++ post)
    (hcomputing : s'.Computing x → s.Computing x) (h : s'.Active leader x) :
    s.Active leader x := by
  rcases h with h | h | ⟨q, hq, hq'⟩
  · exact .inl (hcomputing h)
  · exact .inr (.inl (h.of_rest hpackets hrest))
  · rw [hrest] at hq
    exact .inr (.inr ⟨q, mem_of_rest hpackets hq, hq'⟩)

include hpackets in
/-- What a step has to show that takes a message off and sends nothing. -/
theorem Sound.of_read (h : s.Sound leader) {s' : System} (hrest : s'.packets = pre ++ post)
    (hnet : s'.net = s.net)
    (hinitial : (s'.comp leader).state = .initial → (s.comp leader).state = .initial)
    (hidle : ∀ y, ¬ s'.Computing y → s'.stack y = [])
    (hlisted : ∀ k, (s'.comp leader).Listed k → s.Known leader k)
    (hactive : ∀ y, s'.Active leader y → s.Backed leader y s.packets)
    (hbacked : ∀ k sent sent',
      (s'.Active leader k ∨ ∃ q ∈ pre ++ post, q.src = k ∧ q.dst = leader) →
      (∀ q ∈ sent, q = p ∨ q ∈ sent') → s.Backed leader k sent → s'.Backed leader k sent')
    (hfinished : (s'.comp leader).state = .finished → (s.comp leader).state = .finished)
    (hnone : (∀ k, s.recorded leader k = []) → ∀ k, s'.recorded leader k = []) :
    s'.Sound leader := by
  refine ⟨h.wired.of_net hnet, ?_, hidle, ?_, ?_, ?_, ?_, ?_, ?_, ?_⟩
  · intro hstate
    have hempty := (h.fresh (hinitial hstate)).1
    rw [hpackets] at hempty
    simp at hempty
  · intro q hq
    exact h.route q (mem_of_rest hpackets (hrest ▸ hq))
  · intro k hk
    exact (hlisted k hk).of_net hnet
  · intro q hq k v hv
    exact (h.writes q (mem_of_rest hpackets (hrest ▸ hq)) k v hv).of_net hnet
  · intro q hq id hid
    obtain ⟨hknown, hothers⟩ := h.requests q (mem_of_rest hpackets (hrest ▸ hq)) id hid
    exact ⟨hknown.of_net hnet, hothers⟩
  · intro y hy
    rw [hrest]
    exact hbacked y _ _ (.inl hy) (fun q hq => eq_or_mem_rest hpackets hq) (hactive y hy)
  · intro pre' q post' hsplit hdst hassign
    rw [hrest] at hsplit
    have hq : q ∈ pre ++ post := by simp [hsplit]
    obtain ⟨pre₀, post₀, hsplit₀, hsub⟩ := exists_split_of_remove (p := p) hsplit
    rw [← hpackets] at hsplit₀
    exact hbacked q.src _ _ (.inr ⟨q, hq, rfl, hdst⟩) hsub
      (h.assigned pre₀ q post₀ hsplit₀ hdst hassign)
  · intro hended
    apply hnone
    apply h.ended
    rcases hended with hstate | ⟨q, hq, hterminate⟩
    · exact .inl (hfinished hstate)
    · exact .inr ⟨q, mem_of_rest hpackets (hrest ▸ hq), hterminate⟩

include hpackets in
theorem Sound.readAssignment (h : s.Sound leader) {assign : StackAssignment} {resent : Bool}
    (hmsg : p.msg = .stackAssignment assign resent)
    (hdate : s.UpToDate leader p (pre ++ post)) (phase : Phase) :
    ({ s with packets := pre ++ post }.commit p.dst phase
      ((s.comp p.dst).onAssignment (s.net p.dst) assign, [])).Sound leader := by
  have hp := mem_of_read hpackets
  simp only [UpToDate, hmsg] at hdate
  obtain ⟨-, hempty, hstale⟩ := hdate
  generalize hs' : ({ s with packets := pre ++ post } : System).commit p.dst phase
    ((s.comp p.dst).onAssignment (s.net p.dst) assign, []) = s'
  have hrest : s'.packets = pre ++ post := by simp [← hs']
  have hother : ∀ y, y ≠ p.dst → s'.comp y = s.comp y := by
    intro y hy
    rw [← hs', commit_comp_of_ne _ _ _ hy]
  have hself : s'.comp p.dst = (s.comp p.dst).onAssignment (s.net p.dst) assign := by
    rw [← hs', commit_comp_self]
  have hstate : (s'.comp leader).state = .computing ∨ (s'.comp leader).state = .waiting ∨
      s'.comp leader = s.comp leader := by
    by_cases hdst : leader = p.dst
    · rw [hdst, hself]
      exact ((s.comp p.dst).onAssignment_state (s.net p.dst) assign).imp_right .inl
    · exact .inr (.inr (hother leader hdst))
  have hshare : ¬ s.Computing p.dst → s'.stack p.dst = assign.getAssignment p.dst ∧
      (s'.Computing p.dst ↔ assign.getAssignment p.dst ≠ []) := by
    intro hidle
    obtain ⟨hcut, hstate⟩ := (s.comp p.dst).onAssignment_of_not_computing (s.net p.dst) assign hidle
    rw [h.wired.networkId] at hcut hstate
    rw [stack, Computing, hself, Computation.stack, hcut, hstate]
    refine ⟨rfl, ?_⟩
    split <;> simp [*]
  have hread : p.dst = leader → ∀ k v, assign.find? k = some v → s'.recorded leader k = v := by
    rintro hdst k v hk
    rw [recorded, ← hdst, hself, Computation.onAssignment_recorded, hk, Option.getD_some]
  have hrecorded : ∀ k, s.recorded leader k ≠ [] → s'.recorded leader k ≠ [] := by
    intro k hk
    by_cases hdst : leader = p.dst
    · cases hfind : assign.find? k with
      | none =>
        rw [recorded, hdst, hself, Computation.onAssignment_recorded, hfind, Option.getD_none]
        rwa [recorded, hdst] at hk
      | some v =>
        rw [hread hdst.symm k v hfind]
        rintro rfl
        exact hk (hempty hdst.symm k hfind)
    · rwa [recorded, hother leader hdst]
  refine h.of_read hpackets hrest (by simp [← hs']) ?_ ?_ ?_ ?_ ?_ ?_ ?_
  · intro hinitial
    rcases hstate with hstate | hstate | hsame
    · rw [hstate] at hinitial
      cases hinitial
    · rw [hstate] at hinitial
      cases hinitial
    · rwa [hsame] at hinitial
  · intro y hy
    rcases eq_or_ne y p.dst with rfl | hne
    · have hidle : ¬ s.Computing p.dst := by
        intro hcomputing
        apply hy
        rw [Computing, hself]
        exact (Computation.onAssignment_of_computing _ _ _ hcomputing).2
      obtain ⟨hstack, hcomputing⟩ := hshare hidle
      rw [hstack]
      exact not_not.mp fun hne => hy (hcomputing.mpr hne)
    · rw [stack, hother y hne]
      rw [Computing, hother y hne] at hy
      exact h.idle y hy
  · intro k hk
    by_cases hdst : leader = p.dst
    · rw [hdst, hself] at hk
      rcases Computation.onAssignment_listed _ _ _ hk with hk | hk | hk
      · obtain ⟨v, hv⟩ := Option.isSome_iff_exists.mp (StackAssignment.mem_getClients.mp hk)
        apply h.writes p hp k v
        rw [Packet.write?, hmsg]
        exact hv
      · exact h.listed k (hdst ▸ hk)
      · rw [h.wired.networkId, ← hdst] at hk
        exact .inl hk
    · rw [hother leader hdst] at hk
      exact h.listed k hk
  · intro y hy
    by_cases hcomputing : s'.Computing y → s.Computing y
    · exact h.backed y (hy.of_rest hpackets hrest hcomputing)
    · -- a node has just started its share
      obtain ⟨hnow, hidle⟩ := Classical.not_imp.mp hcomputing
      obtain rfl : y = p.dst := by
        by_contra hne
        rw [Computing, hother y hne] at hnow
        exact hidle hnow
      have hne := (hshare hidle).2.mp hnow
      cases resent with
      | false =>
        have hnew : p.newWork ≠ [] := by
          rw [Packet.newWork, hmsg]
          exact hne
        exact h.backed _ (.inr (.inl ⟨p, hp, rfl, hnew⟩))
      | true => exact .inl (hstale rfl hidle hne)
  · intro k sent sent' _ hsub hk
    apply hk.of_read hsub (hrecorded k)
    intro hdst v hv hne
    rw [Packet.write?, hmsg] at hv
    rwa [hread hdst k v hv]
  · intro hfinished
    rcases hstate with hstate | hstate | hsame
    · rw [hstate] at hfinished
      cases hfinished
    · rw [hstate] at hfinished
      cases hfinished
    · rwa [hsame] at hfinished
  · intro hnone k
    have hdst : leader ≠ p.dst :=
      fun hdst => h.no_assignment hnone hp hdst.symm ⟨assign, resent, hmsg⟩
    rw [recorded, hother leader hdst]
    exact hnone k

include hpackets in
theorem Sound.readFinished (h : s.Sound leader) {best : Int32} {c : Computation}
    (hmsg : p.msg = .assignmentFinished best) (hdate : s.UpToDate leader p (pre ++ post))
    (hc : (s.comp p.dst).onAssignmentFinished best p.src = some c) (phase : Phase) :
    ({ s with packets := pre ++ post }.commit p.dst phase (c, [])).Sound leader := by
  have hp := mem_of_read hpackets
  simp only [UpToDate, hmsg] at hdate
  obtain ⟨hcleared, hlisted, hcut, hstate, -, -⟩ := Computation.onAssignmentFinished_eq_some hc
  generalize hs' : ({ s with packets := pre ++ post } : System).commit p.dst phase (c, []) = s'
  have hrest : s'.packets = pre ++ post := by simp [← hs']
  have hother : ∀ y, y ≠ p.dst → s'.comp y = s.comp y := by
    intro y hy
    rw [← hs', commit_comp_of_ne _ _ _ hy]
  have hself : s'.comp p.dst = c := by
    rw [← hs', commit_comp_self]
  have hstates : ∀ y, (s'.comp y).state = (s.comp y).state ∧ s'.stack y = s.stack y := by
    intro y
    rcases eq_or_ne y p.dst with rfl | hne
    · rw [stack, stack, hself, Computation.stack, hcut]
      exact ⟨hstate, rfl⟩
    · rw [stack, stack, hother y hne]
      exact ⟨rfl, rfl⟩
  have hcomputing : ∀ y, s'.Computing y → s.Computing y := by
    intro y hy
    rwa [Computing, (hstates y).1] at hy
  have hrecorded : ∀ k, s'.recorded leader k =
      if p.dst = leader ∧ k = p.src then [] else s.recorded leader k := by
    intro k
    cases eq_or_ne leader p.dst with
    | inl hdst =>
      rw [recorded, hdst, hself, hcleared]
      simp [recorded]
    | inr hdst => rw [recorded, hother leader hdst, if_neg (by simp [hdst.symm]), recorded]
  refine h.of_read hpackets hrest (by simp [← hs']) ?_ ?_ ?_ ?_ ?_ ?_ ?_
  · rw [(hstates leader).1]
    exact id
  · intro y hy
    rw [(hstates y).2]
    rw [Computing, (hstates y).1] at hy
    exact h.idle y hy
  · intro k hk
    by_cases hdst : leader = p.dst
    · rw [hdst, hself] at hk
      rcases hlisted k hk with rfl | hk
      · exact h.writes p hp p.src [] (by simp [Packet.write?, hmsg])
      · exact h.listed k (hdst ▸ hk)
    · rw [hother leader hdst] at hk
      exact h.listed k hk
  · intro y hy
    exact h.backed y (hy.of_rest hpackets hrest (hcomputing y))
  · intro k sent sent' hcause hsub hback
    -- whoever reports to the leader and is done has nothing on its way
    have hk : ¬ (p.dst = leader ∧ k = p.src) := by
      rintro ⟨hdst, rfl⟩
      obtain ⟨hidle, hnothing, hlast⟩ := hdate hdst
      rcases hcause with
        (hy | ⟨q, hq, hqdst, hnew⟩ | ⟨q, hq, hqsrc, hqdst, -⟩) | ⟨q, hq, hqsrc, hqdst⟩
      · exact hidle (hcomputing _ hy)
      · exact hnew (hnothing q (hrest ▸ hq) hqdst)
      · exact hlast q (hrest ▸ hq) ⟨hqsrc, hqdst⟩
      · exact hlast q hq ⟨hqsrc, hqdst⟩
    apply hback.of_read hsub (fun hne => by rwa [hrecorded, if_neg hk])
    intro hdst v hv hne
    exact absurd (isAssignment_of_write hv hne) (by simp [hmsg])
  · rw [(hstates leader).1]
    exact id
  · intro hnone k
    rw [hrecorded, hnone k, ite_self]

include hpackets in
theorem Sound.drop (h : s.Sound leader) (hwrite : ∀ k, p.write? k = none) :
    ({ s with packets := pre ++ post } : System).Sound leader := by
  have hrest : ({ s with packets := pre ++ post } : System).packets = pre ++ post := rfl
  refine h.of_read hpackets hrest rfl id h.idle h.listed ?_ ?_ id id
  · intro y hy
    exact h.backed y (hy.of_rest hpackets hrest id)
  · intro k sent sent' _ hsub hback
    apply hback.of_read hsub id
    intro _ v hv
    rw [hwrite] at hv
    cases hv

end Read

section Send

variable {x : NetworkId} {phase : Phase} {r : Computation × List Send}

/-- What a step has to show that changes one node and sends. -/
theorem Sound.of_send (h : s.Sound leader) (hdest : ∀ q ∈ r.2, q.destId ∈ (s.net x).clients)
    (hfresh : ((s.commit x phase r).comp leader).state = .initial →
      (s.comp leader).state = .initial ∧ r.2 = [] ∧ r.1.state ≠ .computing)
    (hidle : r.1.state ≠ .computing → r.1.stack = [])
    (hlisted : x = leader → ∀ k, r.1.Listed k → s.Known leader k)
    (hwrites : ∀ q ∈ r.2, ∀ k v, Packet.write? ⟨x, q.destId, q.msg⟩ k = some v →
      s.Known leader k)
    (hrequests : ∀ q ∈ r.2, ∀ id, q.msg = .divideWith id →
      s.Known leader id ∧ id ≠ q.destId ∧ q.destId ≠ leader)
    (hbacked : ∀ y, (s.commit x phase r).Active leader y →
      (s.commit x phase r).Backed leader y (s.commit x phase r).packets)
    (hkept : x = leader → s.packets ≠ [] → ∀ k, k ≠ leader → s.recorded leader k ≠ [] →
      (s.commit x phase r).recorded leader k ≠ [])
    (hassigned : ∀ q ∈ r.2, q.destId = leader → s.Backed leader x s.packets)
    (hended : (((s.commit x phase r).comp leader).state = .finished ∨
      ∃ q ∈ (s.commit x phase r).packets, q.msg = .terminate) →
      ∀ k, (s.commit x phase r).recorded leader k = []) :
    (s.commit x phase r).Sound leader := by
  have hpackets : ∀ q ∈ (s.commit x phase r).packets, q ∈ s.packets ∨
      ∃ q' ∈ r.2, q = ⟨x, q'.destId, q'.msg⟩ := by
    exact fun q hq => mem_commit_packets.mp hq
  have hbackedOf : ∀ k sent sent', k ≠ leader → (x = leader → s.packets ≠ []) →
      (∀ q ∈ sent, q ∈ sent') → s.Backed leader k sent →
      (s.commit x phase r).Backed leader k sent' := by
    intro k sent sent' hk hnonempty hsub hback
    apply (hback.mono hsub).imp_left
    intro hne
    by_cases hx : leader = x
    · exact hkept hx.symm (hnonempty hx.symm) k hk hne
    · rwa [recorded_commit_of_ne _ _ _ hx]
  refine ⟨h.wired.of_net rfl, ?_, ?_, ?_, ?_, ?_, ?_, hbacked, ?_, hended⟩
  · intro hinitial
    obtain ⟨hbefore, hnone, hstate⟩ := hfresh hinitial
    obtain ⟨hempty, hnobody⟩ := h.fresh hbefore
    refine ⟨by simp [hempty, hnone], ?_⟩
    intro y hy
    rcases eq_or_ne y x with rfl | hne
    · exact hstate ((computing_commit_self ..).mp hy)
    · exact hnobody y ((computing_commit_of_ne _ _ _ hne).mp hy)
  · intro y hy
    rcases eq_or_ne y x with rfl | hne
    · rw [stack_commit_self]
      exact hidle fun hstate => hy ((computing_commit_self ..).mpr hstate)
    · rw [stack_commit_of_ne _ _ _ hne]
      exact h.idle y fun hstate => hy ((computing_commit_of_ne _ _ _ hne).mpr hstate)
  · intro q hq
    rcases hpackets q hq with hq | ⟨q', hq', rfl⟩
    · exact h.route q hq
    · rintro (rfl : x = q'.destId)
      exact h.wired.irrefl _ (hdest q' hq')
  · intro k hk
    rcases eq_or_ne x leader with rfl | hne
    · rw [commit_comp_self] at hk
      exact hlisted rfl k hk
    · rw [commit_comp_of_ne _ _ _ hne.symm] at hk
      exact h.listed k hk
  · intro q hq k v hv
    rcases hpackets q hq with hq | ⟨q', hq', rfl⟩
    · exact h.writes q hq k v hv
    · exact hwrites q' hq' k v hv
  · intro q hq id hid
    rcases hpackets q hq with hq | ⟨q', hq', rfl⟩
    · exact h.requests q hq id hid
    · exact hrequests q' hq' id hid
  · intro pre q post hsplit hdst hassign
    have hq : q ∈ (s.commit x phase r).packets := by
      rw [hsplit]
      simp
    have hsrc : q.src ≠ leader := by
      rcases hpackets q hq with hq | ⟨q', hq', rfl⟩
      · rw [← hdst]
        exact h.route q hq
      · rintro (rfl : x = leader)
        have hdst' : q'.destId = x := hdst
        exact h.wired.irrefl x (hdst' ▸ hdest q' hq')
    rw [commit_packets] at hsplit
    rcases split_of_append hsplit with ⟨post', hold⟩ | ⟨hnew, hsub⟩
    · exact hbackedOf q.src pre pre hsrc (fun _ => by simp [hold]) (fun _ hq => hq)
        (h.assigned pre q post' hold hdst hassign)
    · obtain ⟨q', hq', rfl⟩ := List.mem_map.mp hnew
      exact hbackedOf x s.packets pre hsrc (fun hx => absurd hx hsrc) hsub (hassigned q' hq' hdst)

/-- A node that searches, or does not change what others depend on. -/
theorem Sound.of_quiet (h : s.Sound leader) {c : Computation}
    (hidle : c.state ≠ .computing → c.stack = [])
    (hcomputing : c.state = .computing → s.Computing x)
    (hinitial : c.state = .initial → (s.comp x).state = .initial)
    (hfinished : c.state = .finished → (s.comp x).state = .finished)
    (hrecorded : ∀ k, c.recorded k = s.recorded x k)
    (hlisted : ∀ k, c.Listed k → (s.comp x).Listed k) :
    (s.commit x phase (c, [])).Sound leader := by
  have hpackets : (s.commit x phase (c, [])).packets = s.packets := by simp
  have hsame : ∀ k, (s.commit x phase (c, [])).recorded leader k = s.recorded leader k := by
    intro k
    rcases eq_or_ne leader x with rfl | hne
    · rw [recorded_commit_self, hrecorded]
    · rw [recorded_commit_of_ne _ _ _ hne]
  refine h.of_send (by simp) ?_ hidle ?_ (by simp) (by simp) ?_ ?_ (by simp) ?_
  · intro hstate
    rcases eq_or_ne leader x with rfl | hne
    · rw [commit_comp_self] at hstate
      have hnot : c.state ≠ .computing := by
        rw [show c.state = .initial from hstate]
        exact State.noConfusion
      exact ⟨hinitial hstate, rfl, hnot⟩
    · rw [commit_comp_of_ne _ _ _ hne] at hstate
      exact ⟨hstate, rfl, fun hc => (h.fresh hstate).2 x (hcomputing hc)⟩
  · rintro rfl k hk
    exact h.listed k (hlisted k hk)
  · intro y hy
    have hactive : s.Active leader y := by
      cases hy with
      | inl hy =>
        rcases eq_or_ne y x with rfl | hne
        · exact .inl (hcomputing ((computing_commit_self ..).mp hy))
        · exact .inl ((computing_commit_of_ne _ _ _ hne).mp hy)
      | inr hy =>
        rw [Awaits, hpackets] at hy
        exact .inr hy
    rw [hpackets]
    exact (h.backed y hactive).imp_left fun hne => by rwa [hsame]
  · intro _ _ k _ hne
    rwa [hsame]
  · intro hended k
    rw [hsame]
    refine h.ended ?_ k
    rw [hpackets] at hended
    apply hended.imp_left
    intro hstate
    rcases eq_or_ne leader x with rfl | hne
    · rw [commit_comp_self] at hstate
      exact hfinished hstate
    · rwa [commit_comp_of_ne _ _ _ hne] at hstate

theorem Sound.started_of_commit (h : s.Sound leader) (hcomputing : s.Computing x)
    (hstate : r.1.state ≠ .initial) : ((s.commit x phase r).comp leader).state ≠ .initial := by
  rcases eq_or_ne leader x with rfl | hx
  · rwa [commit_comp_self]
  · rw [commit_comp_of_ne _ _ _ hx]
    exact fun hinitial => (h.fresh hinitial).2 x hcomputing

/-- A job with work left stays running unless the step ends it. -/
theorem Sound.running_of_commit (h : s.Sound leader) (hcomputing : s.Computing x)
    (hstate : r.1.state ≠ .finished) (hsent : ∀ q ∈ r.2, q.msg ≠ .terminate) :
    ¬ (((s.commit x phase r).comp leader).state = .finished ∨
      ∃ q ∈ (s.commit x phase r).packets, q.msg = .terminate) := by
  have hrunning : ¬ ((s.comp leader).state = .finished ∨ ∃ q ∈ s.packets, q.msg = .terminate) :=
    fun hended => h.not_active (h.ended hended) x (.inl hcomputing)
  rintro (hfinished | ⟨q, hq, hterminate⟩)
  · rcases eq_or_ne leader x with rfl | hx
    · rw [commit_comp_self] at hfinished
      exact hstate hfinished
    · rw [commit_comp_of_ne _ _ _ hx] at hfinished
      exact hrunning (.inl hfinished)
  · rcases mem_commit_packets.mp hq with hq | ⟨q', hq', rfl⟩
    · exact hrunning (.inr ⟨q, hq, hterminate⟩)
    · exact hsent q' hq' hterminate

/-- A division: both halves are backed by the record it writes or sends. -/
theorem Sound.divide (h : s.Sound leader) {client : NetworkId} (hclient : s.Known leader client)
    (hne : client ≠ x) (hfree : x = leader → s.recorded leader client = []) :
    (s.commit x phase ((s.comp x).onDivideWith (s.net x) client)).Sound leader := by
  by_cases hwork : s.stack x = []
  · rw [Computation.onDivideWith_of_nil _ _ hwork]
    exact h.of_quiet (fun hstate => h.idle x hstate) id id id (fun _ => rfl) fun _ => id
  have hcomputing : s.Computing x := not_not.mp fun hidle => hwork (h.idle x hidle)
  have hback : s.Backed leader x s.packets := h.backed x (.inl hcomputing)
  have hknown : s.Known leader x := h.known_of_active (.inl hcomputing)
  have hclient' : client ≠ (s.net x).networkId := by rwa [h.wired.networkId]
  obtain ⟨c, heq, hstate, hcut, -, -, hrec, hlist⟩ := Computation.onDivideWith_spec hclient' hwork
  rw [heq]
  generalize hassign : Computation.dividedAssignment (s.net x) client (s.comp x).stack = assign
    at hrec hlist ⊢
  have hkept : newDataB (s.comp x).stack ≠ [] := fun hnil => hwork ((newDataB_eq_nil_iff _).mp hnil)
  have hfind : ∀ k, assign.find? k = if k = client then some (newDataA (s.comp x).stack)
      else if k = x then some (newDataB (s.comp x).stack) else none := by
    intro k
    rw [← hassign, Computation.find?_dividedAssignment, h.wired.networkId]
  have hentry : ∀ k v, assign.find? k = some v → s.Known leader k := by
    intro k v hk
    rw [hfind] at hk
    split_ifs at hk with hkid hkx
    · rwa [hkid]
    · rwa [hkx]
  have hkeptRecord : ∀ k, s.recorded leader k ≠ [] →
      (s.commit x phase (c, (s.net x).broadcastMsg (.stackAssignment assign false))).recorded
        leader k ≠ [] := by
    intro k hk
    rcases eq_or_ne leader x with rfl | hx
    · rw [recorded_commit_self, hrec, hfind]
      split_ifs with hkid hkx
      · exact absurd (hkid ▸ hfree rfl) hk
      · exact hkept
      · exact hk
    · rwa [recorded_commit_of_ne _ _ _ hx]
  refine h.of_send ?_ ?_ ?_ ?_ ?_ ?_ ?_ (fun _ _ k _ => hkeptRecord k) ?_ ?_
  · intro q hq
    exact (Net.mem_broadcastMsg.mp hq).1
  · intro hinitial
    exact absurd hinitial (h.started_of_commit hcomputing (by simp [hstate]))
  · intro hnot
    exact absurd hstate hnot
  · rintro rfl k hk
    cases hlist k hk with
    | inl hk =>
      obtain ⟨v, hv⟩ := Option.isSome_iff_exists.mp hk
      exact hentry k v hv
    | inr hk => exact h.listed k hk
  · intro q hq k v hv
    rw [Packet.write?, (Net.mem_broadcastMsg.mp hq).2] at hv
    exact hentry k v hv
  · intro q hq j hj
    rw [(Net.mem_broadcastMsg.mp hq).2] at hj
    cases hj
  · intro y hy
    have hold : s.Active leader y → (s.commit x phase (c, (s.net x).broadcastMsg
        (.stackAssignment assign false))).Backed leader y (s.commit x phase (c,
          (s.net x).broadcastMsg (.stackAssignment assign false))).packets := by
      intro hactive
      refine ((h.backed y hactive).mono ?_).imp_left (hkeptRecord y)
      intro q hq
      exact List.mem_append_left _ hq
    rcases hy with hy | ⟨q, hq, hdst, hnew⟩ | ⟨q, hq, hsrc, hdst, best, hbest⟩
    · rcases eq_or_ne y x with rfl | hx
      · exact hold (.inl hcomputing)
      · exact hold (.inl ((computing_commit_of_ne _ _ _ hx).mp hy))
    · rcases mem_commit_packets.mp hq with hq | ⟨q', hq', rfl⟩
      · exact hold (.inr (.inl ⟨q, hq, hdst, hnew⟩))
      · -- the half that was given away
        obtain ⟨hdest, hmsg⟩ := Net.mem_broadcastMsg.mp hq'
        obtain ⟨v, hv, hvne⟩ := newWork_of_write hdst hnew
        rw [Packet.write?, hmsg] at hv
        change assign.find? y = some v at hv
        have hyx : y ≠ x := by
          rintro rfl
          have hdst' : q'.destId = y := hdst
          exact h.wired.irrefl y (hdst' ▸ hdest)
        obtain rfl : y = client := by
          by_contra hother
          rw [hfind, if_neg hother, if_neg hyx] at hv
          cases hv
        rcases eq_or_ne leader x with rfl | hx
        · left
          rw [recorded_commit_self, hrec, hv]
          exact hvne
        · right
          have hmem : leader ∈ (s.net x).clients :=
            h.wired.symm _ _ (hknown.resolve_left hx.symm)
          refine ⟨⟨x, leader, .stackAssignment assign false⟩, ?_, rfl, v, hv, hvne⟩
          exact mem_commit_packets.mpr (.inr ⟨⟨leader, _⟩,
            Net.mem_broadcastMsg.mpr ⟨hmem, rfl⟩, rfl⟩)
    · rcases mem_commit_packets.mp hq with hq | ⟨q', hq', rfl⟩
      · exact hold (.inr (.inr ⟨q, hq, hsrc, hdst, best, hbest⟩))
      · have hmsg : q'.msg = .assignmentFinished best := hbest
        rw [(Net.mem_broadcastMsg.mp hq').2] at hmsg
        cases hmsg
  · intro _ _ _
    exact hback
  · intro hended
    refine absurd hended (h.running_of_commit hcomputing (by simp [hstate]) ?_)
    intro q hq hterminate
    rw [(Net.mem_broadcastMsg.mp hq).2] at hterminate
    cases hterminate

/-- A compute step; at the end of a job the finish notice is what keeps the node backed. -/
theorem Sound.compute (h : s.Sound leader)
    (hr : (s.comp x).computeStep (s.net x) = some r) : (s.commit x phase r).Sound leader := by
  obtain ⟨mc, ps, hexplored, hcase⟩ := Computation.computeStep_eq_some hr
  rcases hcase with rfl | ⟨hcomputing, hdone, hsent, hcut, hstate, -, -, hrec, hlist⟩
  · refine h.of_quiet ?_ (fun hc => hc) (fun hi => hi) (fun hf => hf) (fun _ => rfl) fun _ hk => hk
    intro hidle
    exact (hexplored.of_nil (h.idle x hidle)).2.1
  have hback : s.Backed leader x s.packets := h.backed x (.inl hcomputing)
  have hknown : s.Known leader x := h.known_of_active (.inl hcomputing)
  have hnotice : ∀ q ∈ r.2, q.destId ∈ (s.net x).clients ∧
      q.msg = .assignmentFinished mc.getBestMax := by
    intro q hq
    rw [hsent] at hq
    exact Net.mem_broadcastMsg.mp hq
  have hpackets : ∀ q ∈ (s.commit x phase r).packets, q ∈ s.packets ∨
      (q.src = x ∧ q.dst ∈ (s.net x).clients ∧ q.msg = .assignmentFinished mc.getBestMax) := by
    intro q hq
    rcases mem_commit_packets.mp hq with hq | ⟨q', hq', rfl⟩
    · exact .inl hq
    · exact .inr ⟨rfl, hnotice q' hq'⟩
  have hsame : ∀ k, k ≠ leader → (s.commit x phase r).recorded leader k = s.recorded leader k := by
    intro k hk
    rcases eq_or_ne leader x with rfl | hx
    · rw [recorded_commit_self, hrec, h.wired.networkId, if_neg hk]
      rfl
    · rw [recorded_commit_of_ne _ _ _ hx]
  refine h.of_send (fun q hq => (hnotice q hq).1) ?_ ?_ ?_ ?_ ?_ ?_ ?_ ?_ ?_
  · intro hinitial
    exact absurd hinitial (h.started_of_commit hcomputing (by simp [hstate]))
  · intro _
    rw [Computation.stack, hcut]
    exact hdone
  · rintro rfl k hk
    cases hlist k hk with
    | inl hk => exact .inl (hk.trans (h.wired.networkId _))
    | inr hk => exact h.listed k hk
  · intro q hq k v hv
    rw [Packet.write?, (hnotice q hq).2] at hv
    obtain ⟨rfl, -⟩ := Option.ite_none_right_eq_some.mp hv
    exact hknown
  · intro q hq id hid
    rw [(hnotice q hq).2] at hid
    cases hid
  · intro y hy
    by_cases hleads : y = leader ∧ x = leader
    · -- the leader itself can only be waiting for new work
      obtain ⟨rfl, rfl⟩ := hleads
      rcases hy with hy | ⟨q, hq, hdst, hnew⟩ | ⟨q, hq, hsrc, hdst, -⟩
      · rw [computing_commit_self, hstate] at hy
        cases hy
      · exact .inr ⟨q, hq, hdst, newWork_of_write hdst hnew⟩
      · rcases hpackets q hq with hq | ⟨-, hdst', -⟩
        · exact absurd (hsrc.trans hdst.symm) (h.route q hq)
        · exact absurd (hdst ▸ hdst') (h.wired.irrefl _)
    · have hactive : s.Active leader y := by
        rcases eq_or_ne y x with rfl | hx
        · exact .inl hcomputing
        rcases hy with hy | ⟨q, hq, hdst, hnew⟩ | ⟨q, hq, hsrc, hdst, hbest⟩
        · exact .inl ((computing_commit_of_ne _ _ _ hx).mp hy)
        · rcases hpackets q hq with hq | ⟨-, -, hmsg⟩
          · exact .inr (.inl ⟨q, hq, hdst, hnew⟩)
          · rw [Packet.newWork, hmsg] at hnew
            exact absurd rfl hnew
        · rcases hpackets q hq with hq | ⟨hsrc', -, -⟩
          · exact .inr (.inr ⟨q, hq, hsrc, hdst, hbest⟩)
          · exact absurd (hsrc.symm.trans hsrc') hx
      apply ((h.backed y hactive).mono fun q hq => List.mem_append_left _ hq).imp_left
      intro hne
      by_cases hyl : y = leader
      · have hx : leader ≠ x := fun hx => hleads ⟨hyl, hx.symm⟩
        rwa [recorded_commit_of_ne _ _ _ hx]
      · rwa [hsame y hyl]
  · intro _ _ k hk hne
    rwa [hsame k hk]
  · intro _ _ _
    exact hback
  · intro hended
    refine absurd hended (h.running_of_commit hcomputing (by simp [hstate]) ?_)
    intro q hq hterminate
    rw [(hnotice q hq).2] at hterminate
    cases hterminate

end Send

/-- A message of the leader that gives nobody new work. -/
def Harmless (s : System) (leader : NetworkId) (q : Send) : Prop :=
  q.destId ∈ (s.net leader).clients ∧
    ((∃ repeated, q.msg = .stackAssignment repeated true ∧
        ∀ k v, repeated.find? k = some v → s.Known leader k) ∨
      (q.msg = .terminate ∧ ∀ k, s.recorded leader k = []) ∨
      ∃ id, q.msg = .divideWith id ∧ s.Known leader id ∧ id ≠ q.destId)

/-- The leader may repeat its table, ask for divisions, and end what has ended. -/
theorem Sound.notices (h : s.Sound leader) {phase : Phase} {c : Computation} {sent : List Send}
    (hcut : c.maximumCut = (s.comp leader).maximumCut) (hstarted : c.state ≠ .initial)
    (hstate : c.state = (s.comp leader).state ∨
      c.state = .finished ∧ ∀ k, s.recorded leader k = [])
    (hrecorded : ∀ k, c.recorded k = s.recorded leader k)
    (hlisted : ∀ k, c.Listed k → (s.comp leader).Listed k)
    (hsent : ∀ q ∈ sent, s.Harmless leader q) :
    (s.commit leader phase (c, sent)).Sound leader := by
  have hsame : ∀ k, (s.commit leader phase (c, sent)).recorded leader k = s.recorded leader k := by
    intro k
    rw [recorded_commit_self, hrecorded]
  have hpackets : ∀ q ∈ (s.commit leader phase (c, sent)).packets, q ∈ s.packets ∨
      ∃ q' ∈ sent, q = ⟨leader, q'.destId, q'.msg⟩ := by
    exact fun q hq => mem_commit_packets.mp hq
  have hothers : ∀ q ∈ sent, q.destId ≠ leader := by
    intro q hq hdest
    exact h.wired.irrefl leader (hdest ▸ (hsent q hq).1)
  refine h.of_send (fun q hq => (hsent q hq).1) ?_ ?_ (fun _ k hk => h.listed k (hlisted k hk))
    ?_ ?_ ?_ ?_ (fun q hq hdest => absurd hdest (hothers q hq)) ?_
  · intro hinitial
    rw [commit_comp_self] at hinitial
    exact absurd hinitial hstarted
  · intro hidle
    rw [Computation.stack, hcut]
    rcases hstate with hstate | ⟨-, hnone⟩
    · exact h.idle leader fun hc => hidle (hstate.trans hc)
    · exact h.idle leader fun hc => h.not_active hnone leader (.inl hc)
  · intro q hq k v hv
    obtain ⟨-, ⟨repeated, hmsg, hrepeated⟩ | ⟨hmsg, -⟩ | ⟨id, hmsg, -⟩⟩ := hsent q hq
    · rw [Packet.write?, hmsg] at hv
      exact hrepeated k v hv
    · rw [Packet.write?, hmsg] at hv
      cases hv
    · rw [Packet.write?, hmsg] at hv
      cases hv
  · intro q hq id hid
    obtain ⟨-, ⟨repeated, hmsg, -⟩ | ⟨hmsg, -⟩ | ⟨id', hmsg, hknown, hne⟩⟩ := hsent q hq
    · rw [hmsg] at hid
      cases hid
    · rw [hmsg] at hid
      cases hid
    · rw [hmsg] at hid
      cases hid
      exact ⟨hknown, hne, hothers q hq⟩
  · intro y hy
    have hactive : s.Active leader y := by
      rcases hy with hy | ⟨q, hq, hdst, hnew⟩ | ⟨q, hq, hsrc, hdst, hbest⟩
      · rcases eq_or_ne y leader with rfl | hne
        · rw [computing_commit_self] at hy
          rcases hstate with hstate | ⟨hstate, -⟩
          · exact .inl (hstate.symm.trans hy)
          · rw [show c.state = .computing from hy] at hstate
            cases hstate
        · exact .inl ((computing_commit_of_ne _ _ _ hne).mp hy)
      · rcases hpackets q hq with hq | ⟨q', hq', rfl⟩
        · exact .inr (.inl ⟨q, hq, hdst, hnew⟩)
        · obtain ⟨-, ⟨_, hmsg, -⟩ | ⟨hmsg, -⟩ | ⟨_, hmsg, -⟩⟩ := hsent q' hq' <;>
          · rw [Packet.newWork, hmsg] at hnew
            exact absurd rfl hnew
      · rcases hpackets q hq with hq | ⟨q', hq', rfl⟩
        · exact .inr (.inr ⟨q, hq, hsrc, hdst, hbest⟩)
        · exact absurd hdst (hothers q' hq')
    apply ((h.backed y hactive).mono fun q hq => List.mem_append_left _ hq).imp_left
    intro hne
    rwa [hsame]
  · intro _ _ k _ hne
    rwa [hsame]
  · intro hended k
    rw [hsame]
    rcases hended with hfinished | ⟨q, hq, hterminate⟩
    · rw [commit_comp_self] at hfinished
      rcases hstate with hstate | ⟨-, hnone⟩
      · exact h.ended (.inl (hstate.symm.trans hfinished)) k
      · exact hnone k
    · rcases hpackets q hq with hq | ⟨q', hq', rfl⟩
      · exact h.ended (.inr ⟨q, hq, hterminate⟩) k
      · have hmsg' : q'.msg = .terminate := hterminate
        obtain ⟨-, ⟨_, hmsg, -⟩ | ⟨-, hnone⟩ | ⟨_, hmsg, -⟩⟩ := hsent q' hq'
        · rw [hmsg] at hmsg'
          cases hmsg'
        · exact hnone k
        · rw [hmsg] at hmsg'
          cases hmsg'

end System

end ParLib.Job
