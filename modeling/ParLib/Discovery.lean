import ParLib.AddressText
import ParLib.SubnetScan
import ParLib.NetworkId
import ParLib.Foundations.Runs

/-!
# How the nodes find each other

A node first binds the lowest free port from 1337 on and then tries, once, the
ports 1337 to 1344 of the first addresses of its network. Several nodes may
run on one machine, and each does all this at its own pace. Two nodes meet
because both listen before they look: the one that looks later finds the other.
-/

namespace ParLib

set_option autoImplicit false

open Foundations

def defaultPort : Nat := 1337

/-- `InitServer`: the first port that can be bound, of those from `port` on. -/
def initServer (canBind : Nat → Bool) : Nat → Nat → Option Nat
  | 0, _ => none
  | left + 1, port => if canBind port then some port else initServer canBind left (port + 1)

def getLocalAddressInSubnet (addresses : List (List Byte)) (address : List Byte) (bits : Nat) :
    List Byte :=
  let low := UInt32.ofNat bits
  let subnet := parseIPV4Addr address >>> low <<< low
  (addresses.find? fun addr => parseIPV4Addr addr >>> low <<< low = subnet).getD []

/-- The id of a node: its address, an underscore and its port. -/
def networkIdOf (localAddr : List Byte) (port : Nat) : NetworkId :=
  localAddr ++ [95] ++ decimalText (port + 1) port

/-- The addresses of a machine as texts, and the ports that other programs hold there. -/
structure Machine where
  addresses : List (List Byte)
  taken : List Nat
  deriving DecidableEq, Repr

/-- Which node runs on which machine, and the network that all are started with. -/
structure Network (m n : Nat) where
  network : List Byte
  maskBits : Nat
  machines : Fin m → Machine
  place : Fin n → Fin m

namespace Network

variable {m n : Nat} (net : Network m n)

def addresses (i : Fin n) : List (List Byte) := (net.machines (net.place i)).addresses

def localAddr (i : Fin n) : List Byte :=
  getLocalAddressInSubnet (net.addresses i) net.network net.maskBits

/-- The addresses that `DiscoverAll` visits; it gives up after 16 tries and one more. -/
def visited : List (List Byte) :=
  (discoverLoop (some 16) 18 0 (AddrSubnetIterator.new net.network net.maskBits)).getD []

def targets : List (List Byte × Nat) :=
  net.visited.flatMap fun next => (List.range' defaultPort 8).map fun port => (next, port)

/-- An address lies in the network that the nodes are started with. -/
def InSubnet (addr : List Byte) : Prop :=
  (parseIPV4Addr addr).toNat / 2 ^ net.maskBits =
    (parseIPV4Addr net.network).toNat / 2 ^ net.maskBits

instance (addr : List Byte) : Decidable (net.InSubnet addr) :=
  inferInstanceAs (Decidable (_ = _))

/-- No two machines have the same address in the network. -/
def Separate : Prop :=
  ∀ a b addr, net.InSubnet addr → addr ∈ (net.machines a).addresses →
    addr ∈ (net.machines b).addresses → a = b

end Network

/-- The ports that nodes listen on, what each has still to try, and whom it has found. -/
structure Discovery (n : Nat) where
  port : Fin n → Option Nat
  scan : Fin n → Option (List (List Byte × Nat))
  found : Fin n → List (Fin n)

inductive DiscoveryAction (n : Nat)
  | start (i : Fin n)
  | discoverAll (i : Fin n)
  | reach (i j : Fin n)
  | miss (i : Fin n)
  deriving DecidableEq, Repr

namespace Discovery

variable {m n : Nat} {net : Network m n} {s t : Discovery n} {a : DiscoveryAction n} {i j k : Fin n}

def init (n : Nat) : Discovery n := ⟨fun _ => none, fun _ => none, fun _ => []⟩

def canBind (net : Network m n) (s : Discovery n) (i : Fin n) (port : Nat) : Bool :=
  port ∉ (net.machines (net.place i)).taken ∧
    ∀ j, net.place j = net.place i → s.port j ≠ some port

/-- A server listens on every address of its machine. -/
def Listens (net : Network m n) (s : Discovery n) (j : Fin n) (target : List Byte × Nat) : Prop :=
  target.1 ∈ net.addresses j ∧ s.port j = some target.2

instance (target : List Byte × Nat) : Decidable (Listens net s j target) :=
  inferInstanceAs (Decidable (_ ∧ _))

/-- Where no port can be bound the program ends. A try may miss a server: it may be late. -/
def step (net : Network m n) (s : Discovery n) : DiscoveryAction n → Option (Discovery n)
  | .start i =>
    match s.port i with
    | none => (initServer (s.canBind net i) (65536 - defaultPort) defaultPort).map fun port =>
        { s with port := Function.update s.port i (some port) }
    | some _ => none
  | .discoverAll i =>
    match s.port i, s.scan i with
    | some _, none => some { s with scan := Function.update s.scan i (some net.targets) }
    | _, _ => none
  | .reach i j =>
    match s.scan i with
    | some (target :: rest) =>
      if s.Listens net j target then
        some { s with
          scan := Function.update s.scan i (some rest)
          found := Function.update s.found i (s.found i ++ [j]) }
      else none
    | _ => none
  | .miss i =>
    match s.scan i with
    | some (_ :: rest) => some { s with scan := Function.update s.scan i (some rest) }
    | _ => none

/-- Only where nobody listens does a try find nothing. -/
def Answered (net : Network m n) (s : Discovery n) : DiscoveryAction n → Prop
  | .miss i => ∀ target ∈ (s.scan i).bind List.head?, ∀ j, ¬ s.Listens net j target
  | _ => True

instance : Decidable (s.Answered net a) :=
  match a with
  | .start _ => isTrue trivial
  | .discoverAll _ => isTrue trivial
  | .reach _ _ => isTrue trivial
  | .miss i => inferInstanceAs
      (Decidable (∀ target ∈ (s.scan i).bind List.head?, ∀ j, ¬ s.Listens net j target))

/-- `_discovered` of the node. -/
def Discovered (s : Discovery n) (i : Fin n) : Prop := s.scan i = some []

def networkId (net : Network m n) (s : Discovery n) (i : Fin n) : Option NetworkId :=
  (s.port i).map (networkIdOf (net.localAddr i))

/-- The node listens on one of the ports that are tried, at one of the first 17 addresses. -/
def InReach (net : Network m n) (s : Discovery n) (i : Fin n) : Prop :=
  ∃ addr : UInt32, dotted addr ∈ net.addresses i ∧ net.InSubnet (dotted addr) ∧
    addr.toNat % 2 ^ net.maskBits ≤ 16 ∧ ∃ port, s.port i = some port ∧ port < defaultPort + 8

end Discovery

section Texts

theorem parseIPV4Addr_dotted (addr : UInt32) : parseIPV4Addr (dotted addr) = addr := by
  obtain ⟨s, r, q, p, hbytes⟩ : ∃ s r q p, littleEndian 4 addr.toNat = [s, r, q, p] :=
    ⟨_, _, _, _, rfl⟩
  apply UInt32.toNat_inj.mp
  rw [(isQuad_dotted hbytes).toNat_parseIPV4Addr, ← ofLittleEndian_four, ← hbytes,
    ofLittleEndian_littleEndian]
  exact Nat.mod_eq_of_lt addr.toNat_lt

theorem decimalText_inj {num num' : Nat}
    (h : decimalText (num + 1) num = decimalText (num' + 1) num') : num = num' := by
  obtain ⟨-, -, hnum⟩ := isNumeral_decimalText (Nat.lt_succ_self num)
  obtain ⟨-, -, hnum'⟩ := isNumeral_decimalText (Nat.lt_succ_self num')
  rw [← hnum, h, hnum']

theorem append_cons_inj_of_notMem_right {x x' z z' : List Byte} {c : Byte} (hz : c ∉ z)
    (hz' : c ∉ z') (h : x ++ c :: z = x' ++ c :: z') : x = x' ∧ z = z' := by
  cases List.append_eq_append_iff.mp h with
  | inl hmore =>
    obtain ⟨as, rfl, has⟩ := hmore
    cases as with
    | nil => simpa using has
    | cons d as =>
      simp only [List.cons_append, List.cons.injEq] at has
      exact absurd (by simp [has.2]) hz
  | inr hmore =>
    obtain ⟨as, rfl, has⟩ := hmore
    cases as with
    | nil => simpa using has.symm
    | cons d as =>
      simp only [List.cons_append, List.cons.injEq] at has
      exact absurd (by simp [has.2]) hz'

/-- An id tells the address and the port of its node. -/
theorem networkIdOf_inj {addr addr' : List Byte} {port port' : Nat}
    (h : networkIdOf addr port = networkIdOf addr' port') : addr = addr' ∧ port = port' := by
  have hmark : ∀ num : Nat, 95 ∉ decimalText (num + 1) num := by
    intro num hmem
    obtain ⟨-, hdigits, -⟩ := isNumeral_decimalText (Nat.lt_succ_self num)
    exact absurd (hdigits 95 hmem) (by decide)
  rw [networkIdOf, networkIdOf, List.append_assoc, List.append_assoc] at h
  obtain ⟨haddr, hport⟩ := append_cons_inj_of_notMem_right (hmark port) (hmark port') h
  exact ⟨haddr, decimalText_inj hport⟩

end Texts

theorem initServer_eq_some {canBind : Nat → Bool} {left first port : Nat}
    (h : initServer canBind left first = some port) : canBind port = true ∧ first ≤ port := by
  induction left generalizing first with
  | zero => cases h
  | succ left ih =>
    rw [initServer] at h
    split at h
    · rename_i hbind
      cases h
      exact ⟨hbind, le_rfl⟩
    · obtain ⟨hbind, hle⟩ := ih h
      exact ⟨hbind, by omega⟩

theorem discoverLoop_some {tries maxTries fuel : Nat} {it : AddrSubnetIterator}
    (htries : tries ≤ maxTries + 1) (hfuel : maxTries + 2 ≤ fuel + tries) :
    ∃ addrs, discoverLoop (some maxTries) fuel tries it = some addrs ∧
      ∀ k, k + tries ≤ maxTries → (∀ i ≤ k, it.call i ≠ []) → it.call k ∈ addrs := by
  induction fuel generalizing tries it with
  | zero => omega
  | succ fuel ih =>
    rw [discoverLoop]
    split
    · rename_i hover
      have hlt : maxTries < tries := by simpa using hover
      exact ⟨[], rfl, fun k hk _ => by omega⟩
    · rename_i hover
      have hle : tries ≤ maxTries := by simpa using hover
      dsimp only
      split
      · rename_i hnil
        exact ⟨[], rfl, fun k _ hcalls => absurd hnil (hcalls 0 (Nat.zero_le k))⟩
      · obtain ⟨addrs, hrest, hmem⟩ := @ih (tries + 1) it.nextAddr.2 (by omega) (by omega)
        refine ⟨it.nextAddr.1 :: addrs, by rw [hrest]; rfl, ?_⟩
        intro k hk hcalls
        cases k with
        | zero => exact List.mem_cons_self
        | succ k =>
          have hin := hmem k (by omega) fun i hi => hcalls (i + 1) (by omega)
          exact List.mem_cons_of_mem _ hin

namespace Network

variable {m n : Nat} {net : Network m n}

theorem mem_targets {next : List Byte} {port : Nat} :
    (next, port) ∈ net.targets ↔
      next ∈ net.visited ∧ defaultPort ≤ port ∧ port < defaultPort + 8 := by
  simp [targets, List.mem_range'_1]

/-- The scan visits the first 17 addresses of the network. -/
theorem mem_visited (hpos : 1 ≤ net.maskBits) (hbits : net.maskBits ≤ 31) {addr : UInt32}
    (hsubnet : net.InSubnet (dotted addr)) (hfirst : addr.toNat % 2 ^ net.maskBits ≤ 16) :
    dotted addr ∈ net.visited := by
  generalize hk : addr.toNat % 2 ^ net.maskBits = k at hfirst
  have hklt : k < 2 ^ net.maskBits := hk ▸ Nat.mod_lt _ (Nat.two_pow_pos _)
  have hstate := AddrSubnetIterator.toNat_stateAddr_new net.network hbits
  have hmax := AddrSubnetIterator.toNat_maxAddr_new net.network hpos hbits
  rw [InSubnet, parseIPV4Addr_dotted] at hsubnet
  have haddr : (AddrSubnetIterator.new net.network net.maskBits).stateAddr.toNat + k =
      addr.toNat := by
    rw [hstate, ← hsubnet, ← hk, Nat.div_add_mod]
  have hcall : ∀ i ≤ k, (AddrSubnetIterator.new net.network net.maskBits).call i =
      dotted (UInt32.ofNat
        ((AddrSubnetIterator.new net.network net.maskBits).stateAddr.toNat + i)) :=
    fun i hi => AddrSubnetIterator.call_eq_dotted (by omega)
  obtain ⟨addrs, hloop, hmem⟩ := @discoverLoop_some 0 16 18
    (AddrSubnetIterator.new net.network net.maskBits) (by omega) (by omega)
  have hin := hmem k hfirst fun i hi => by
    rw [hcall i hi]
    exact dotted_ne_nil _
  rw [hcall k le_rfl, haddr, UInt32.ofNat_toNat] at hin
  rw [visited, hloop]
  exact hin

/-- An address that `GetLocalAddressInSubnet` returns is one of the machine's in the network. -/
theorem localAddr_spec (hbits : net.maskBits ≤ 31) {i : Fin n} (h : net.localAddr i ≠ []) :
    net.localAddr i ∈ net.addresses i ∧ net.InSubnet (net.localAddr i) := by
  cases hfind : (net.addresses i).find? fun addr =>
      (AddrSubnetIterator.new addr net.maskBits).stateAddr =
        (AddrSubnetIterator.new net.network net.maskBits).stateAddr with
  | none => exact absurd (congrArg (fun found => found.getD []) hfind) h
  | some addr =>
    have hlocal : net.localAddr i = addr := congrArg (fun found => found.getD []) hfind
    have hsame : (AddrSubnetIterator.new addr net.maskBits).stateAddr =
        (AddrSubnetIterator.new net.network net.maskBits).stateAddr := by
      simpa using List.find?_some hfind
    rw [← UInt32.toNat_inj, AddrSubnetIterator.toNat_stateAddr_new addr hbits,
      AddrSubnetIterator.toNat_stateAddr_new net.network hbits] at hsame
    rw [hlocal]
    exact ⟨List.mem_of_find?_eq_some hfind, Nat.eq_of_mul_eq_mul_left (Nat.two_pow_pos _) hsame⟩

end Network

namespace Discovery

variable {m n : Nat} {net : Network m n} {s t : Discovery n} {a : DiscoveryAction n} {i j k : Fin n}

theorem step_cases (h : step net s a = some t) :
    (∃ i port, a = .start i ∧ s.port i = none ∧ s.canBind net i port = true ∧
      defaultPort ≤ port ∧ t = { s with port := Function.update s.port i (some port) }) ∨
    (∃ i, a = .discoverAll i ∧ s.port i ≠ none ∧ s.scan i = none ∧
      t = { s with scan := Function.update s.scan i (some net.targets) }) ∨
    (∃ i j target rest, a = .reach i j ∧ s.scan i = some (target :: rest) ∧
      s.Listens net j target ∧ t = { s with
        scan := Function.update s.scan i (some rest)
        found := Function.update s.found i (s.found i ++ [j]) }) ∨
    (∃ i target rest, a = .miss i ∧ s.scan i = some (target :: rest) ∧
      t = { s with scan := Function.update s.scan i (some rest) }) := by
  cases a with
  | start i =>
    left
    cases hport : s.port i with
    | some port => simp [step, hport] at h
    | none =>
      simp only [step, hport, Option.map_eq_some_iff] at h
      obtain ⟨port, hinit, rfl⟩ := h
      obtain ⟨hbind, hle⟩ := initServer_eq_some hinit
      exact ⟨i, port, rfl, hport, hbind, hle, rfl⟩
  | discoverAll i =>
    right; left
    cases hport : s.port i with
    | none => simp [step, hport] at h
    | some port =>
      cases hscan : s.scan i with
      | some rest => simp [step, hport, hscan] at h
      | none =>
        simp only [step, hport, hscan, Option.some.injEq] at h
        exact ⟨i, rfl, by simp [hport], hscan, h.symm⟩
  | reach i j =>
    right; right; left
    simp only [step] at h
    split at h
    · rename_i target rest hscan
      obtain ⟨hlistens, ⟨⟩⟩ := Option.ite_none_right_eq_some.mp h
      exact ⟨i, j, target, rest, rfl, hscan, hlistens, rfl⟩
    · cases h
  | miss i =>
    right; right; right
    simp only [step] at h
    split at h
    · rename_i target rest hscan
      cases h
      exact ⟨i, target, rest, rfl, hscan, rfl⟩
    · cases h

theorem port_step (h : step net s a = some t) {port : Nat} (hport : s.port i = some port) :
    t.port i = some port := by
  obtain ⟨k, p, rfl, hnone, -, -, rfl⟩ | ⟨k, rfl, -, -, rfl⟩ |
    ⟨k, l, target, rest, rfl, -, -, rfl⟩ |
    ⟨k, target, rest, rfl, -, rfl⟩ := step_cases h
  · have hne : i ≠ k := by
      rintro rfl
      rw [hnone] at hport
      cases hport
    exact (Function.update_of_ne hne _ _).trans hport
  all_goals exact hport

theorem listens_step (h : step net s a = some t) {target : List Byte × Nat}
    (hlistens : s.Listens net j target) : t.Listens net j target :=
  ⟨hlistens.1, port_step h hlistens.2⟩

/-- Only a server scans, it scans the targets, and each server has its endpoint for itself. -/
structure Regular (net : Network m n) (s : Discovery n) : Prop where
  scanning : ∀ i, s.port i = none → s.scan i = none
  targets : ∀ i rest, s.scan i = some rest → rest ⊆ net.targets
  bound : ∀ i port, s.port i = some port → defaultPort ≤ port
  distinct : ∀ i j port, net.place i = net.place j → s.port i = some port → s.port j = some port →
    i = j
  found : ∀ i, ∀ j ∈ s.found i, ∃ target ∈ net.targets, s.Listens net j target

theorem regular_init : Regular net (init n) where
  scanning _ _ := rfl
  targets _ _ h := nomatch h
  bound _ _ h := nomatch h
  distinct _ _ _ _ h := nomatch h
  found _ _ h := nomatch h

theorem Regular.advance (hs : Regular net s) {target : List Byte × Nat}
    {rest : List (List Byte × Nat)} (hscan : s.scan k = some (target :: rest))
    {found : Fin n → List (Fin n)}
    (hfound : ∀ i, ∀ j ∈ found i, ∃ target ∈ net.targets, s.Listens net j target) :
    Regular net { s with scan := Function.update s.scan k (some rest), found := found } := by
  refine ⟨?_, ?_, hs.bound, hs.distinct, hfound⟩
  · intro i hi
    have hik : i ≠ k := by
      rintro rfl
      rw [hs.scanning i hi] at hscan
      cases hscan
    simpa [hik] using hs.scanning i hi
  · intro i later hi
    by_cases hik : i = k
    · simp only [hik, Function.update_self, Option.some.injEq] at hi
      have hall := hs.targets k _ hscan
      exact hi ▸ fun x hx => hall (List.mem_cons_of_mem _ hx)
    · exact hs.targets i later (by simpa [hik] using hi)

theorem regular_step (hs : Regular net s) (h : step net s a = some t) : Regular net t := by
  have hlistens : ∀ {j target}, s.Listens net j target → t.Listens net j target :=
    fun hl => listens_step h hl
  have hfound : ∀ i, ∀ j ∈ s.found i, ∃ target ∈ net.targets, t.Listens net j target := by
    intro i j hj
    obtain ⟨target, htarget, hl⟩ := hs.found i j hj
    exact ⟨target, htarget, hlistens hl⟩
  obtain ⟨k, p, rfl, hnone, hbind, hle, rfl⟩ | ⟨k, rfl, hsome, hnone, rfl⟩ |
    ⟨k, l, target, rest, rfl, hscan, hl, rfl⟩ | ⟨k, target, rest, rfl, hscan, rfl⟩ := step_cases h
  · obtain ⟨-, hfree⟩ := of_decide_eq_true hbind
    refine ⟨?_, hs.targets, ?_, ?_, hfound⟩
    · intro i hi
      by_cases hik : i = k
      · exact absurd hi (by simp [hik])
      · exact hs.scanning i (by simpa [hik] using hi)
    · intro i port hi
      by_cases hik : i = k
      · simp only [hik, Function.update_self, Option.some.injEq] at hi
        omega
      · exact hs.bound i port (by simpa [hik] using hi)
    · intro i j port hplace hi hj
      simp only [Function.update_apply] at hi hj
      split at hi <;> split at hj
      · rename_i hik hjk
        exact hik.trans hjk.symm
      · rename_i hik hjk
        cases hi
        exact absurd hj (hfree j (hik ▸ hplace.symm))
      · rename_i hik hjk
        cases hj
        exact absurd hi (hfree i (hjk ▸ hplace))
      · exact hs.distinct i j port hplace hi hj
  · refine ⟨?_, ?_, hs.bound, hs.distinct, hfound⟩
    · intro i hi
      have hik : i ≠ k := fun hik => hsome (hik ▸ hi)
      simpa [hik] using hs.scanning i hi
    · intro i rest hi
      by_cases hik : i = k
      · simp only [hik, Function.update_self, Option.some.injEq] at hi
        exact hi ▸ List.Subset.refl _
      · exact hs.targets i rest (by simpa [hik] using hi)
  · apply hs.advance hscan
    intro i j hj
    by_cases hik : i = k
    · rw [hik, Function.update_self, List.mem_append, List.mem_singleton] at hj
      cases hj with
      | inl hj => exact hs.found k j hj
      | inr hj => exact ⟨target, hs.targets k _ hscan (by simp), hj ▸ hl⟩
    · exact hs.found i j (by simpa [hik] using hj)
  · exact hs.advance hscan hs.found

/-- The scan of `i` is not yet past the server of `j` without having found it. -/
def Awaits (s : Discovery n) (i j : Fin n) (addr : List Byte) : Prop :=
  ∀ port, s.port j = some port → port < defaultPort + 8 →
    j ∈ s.found i ∨ ∀ rest, s.scan i = some rest → (addr, port) ∈ rest

theorem awaits_of_not_scanning {addr : List Byte} (h : s.scan i = none) : s.Awaits i j addr := by
  intro port _ _
  right
  intro rest hrest
  rw [h] at hrest
  cases hrest

theorem Awaits.found {addr : List Byte} (h : s.Awaits i j addr) (hi : s.Discovered i) {port : Nat}
    (hport : s.port j = some port) (hlt : port < defaultPort + 8) : j ∈ s.found i := by
  cases h port hport hlt with
  | inl hfound => exact hfound
  | inr hahead => exact absurd (hahead [] hi) (by simp)

section Awaits

variable {addr : List Byte}

theorem Regular.server_unique (hs : Regular net s) (hsep : net.Separate)
    (hsubnet : net.InSubnet addr) {port : Nat} (hj : s.Listens net j (addr, port))
    (hk : s.Listens net k (addr, port)) : j = k :=
  hs.distinct j k port (hsep _ _ addr hsubnet hj.1 hk.1) hj.2 hk.2

theorem Awaits.step (hs : Regular net s) (hsep : net.Separate) (hvisited : addr ∈ net.visited)
    (hsubnet : net.InSubnet addr) (haddr : addr ∈ net.addresses j) (hj : s.port j ≠ none)
    (hok : s.Answered net a) (h : step net s a = some t) (hawaits : s.Awaits i j addr) :
    t.Awaits i j addr := by
  obtain ⟨port, hport⟩ := Option.ne_none_iff_exists'.mp hj
  have hlistens : s.Listens net j (addr, port) := ⟨haddr, hport⟩
  intro port' hport' hlt
  obtain rfl : port = port' := Option.some.inj ((port_step h hport).symm.trans hport')
  have hbefore := hawaits port hport hlt
  obtain ⟨k, p, rfl, -, -, -, rfl⟩ | ⟨k, rfl, -, hnone, rfl⟩ |
    ⟨k, l, target, rest, rfl, hscan, hl, rfl⟩ | ⟨k, target, rest, rfl, hscan, rfl⟩ := step_cases h
  · exact hbefore
  · by_cases hik : i = k
    · right
      intro rest hrest
      simp only [hik, Function.update_self, Option.some.injEq] at hrest
      rw [← hrest, Network.mem_targets]
      exact ⟨hvisited, hs.bound j port hport, hlt⟩
    · simpa [hik] using hbefore
  · by_cases hik : i = k
    · subst hik
      simp only [Function.update_self, List.mem_append, List.mem_singleton, Option.some.injEq,
        forall_eq']
      cases hbefore with
      | inl hfound => exact .inl (.inl hfound)
      | inr hahead =>
        cases List.mem_cons.mp (hahead _ hscan) with
        | inl hnow => exact .inl (.inr (hs.server_unique hsep hsubnet hlistens (hnow ▸ hl)))
        | inr hlater => exact .inr hlater
    · simpa [hik] using hbefore
  · by_cases hik : i = k
    · subst hik
      simp only [Function.update_self, Option.some.injEq, forall_eq']
      cases hbefore with
      | inl hfound => exact .inl hfound
      | inr hahead =>
        cases List.mem_cons.mp (hahead _ hscan) with
        | inl hnow => exact absurd hlistens (hnow ▸ hok target (by simp [hscan]) j)
        | inr hlater => exact .inr hlater
    · simpa [hik] using hbefore

end Awaits

/-- Of two servers one has not yet missed the other. -/
def Meets (s : Discovery n) (i j : Fin n) (addr addr' : List Byte) : Prop :=
  s.port i ≠ none → s.port j ≠ none → s.Awaits i j addr' ∨ s.Awaits j i addr

theorem scan_of_no_port (hs : Regular net s) (h : step net s a = some t) (hi : s.port i = none) :
    t.scan i = none := by
  have hscan := hs.scanning i hi
  obtain ⟨k, p, rfl, -, -, -, rfl⟩ | ⟨k, rfl, hsome, -, rfl⟩ |
    ⟨k, l, target, rest, rfl, hk, -, rfl⟩ |
    ⟨k, target, rest, rfl, hk, rfl⟩ := step_cases h
  · exact hscan
  · have hik : i ≠ k := fun hik => hsome (hik ▸ hi)
    simpa [hik] using hscan
  all_goals
    have hik : i ≠ k := by
      rintro rfl
      rw [hscan] at hk
      cases hk
    simpa [hik] using hscan

theorem Meets.step {addr addr' : List Byte} (hs : Regular net s) (hsep : net.Separate)
    (hvisited : addr ∈ net.visited ∧ addr' ∈ net.visited)
    (hsubnet : net.InSubnet addr ∧ net.InSubnet addr')
    (haddr : addr ∈ net.addresses i ∧ addr' ∈ net.addresses j) (hok : s.Answered net a)
    (h : step net s a = some t) (hmeets : s.Meets i j addr addr') : t.Meets i j addr addr' := by
  intro _ _
  by_cases hi : s.port i = none
  · exact .inl (awaits_of_not_scanning (scan_of_no_port hs h hi))
  · by_cases hj : s.port j = none
    · exact .inr (awaits_of_not_scanning (scan_of_no_port hs h hj))
    · cases hmeets hi hj with
      | inl hawaits =>
        exact .inl (hawaits.step hs hsep hvisited.2 hsubnet.2 haddr.2 hj hok h)
      | inr hawaits =>
        exact .inr (hawaits.step hs hsep hvisited.1 hsubnet.1 haddr.1 hi hok h)

theorem regular_run {ok : Discovery n → DiscoveryAction n → Prop}
    (h : Run (step net) ok (init n) s) : Regular net s :=
  h.invariant regular_init fun _ _ _ ht _ hstep => regular_step ht hstep

/-- However the nodes start and scan, two that have both looked have met, whichever of them found
the other, if both listen where the others look. Nobody is found who listens elsewhere. -/
theorem nodes_meet (hpos : 1 ≤ net.maskBits) (hbits : net.maskBits ≤ 31) (hsep : net.Separate)
    (hrun : Run (step net) (Answered net) (init n) s) :
    (∀ i j, s.Discovered i → s.Discovered j → s.InReach net i → s.InReach net j →
      j ∈ s.found i ∨ i ∈ s.found j) ∧
    ∀ i, ∀ j ∈ s.found i, ∃ addr ∈ net.addresses j, addr ∈ net.visited ∧
      ∃ port, s.port j = some port ∧ defaultPort ≤ port ∧ port < defaultPort + 8 := by
  constructor
  · rintro i j hi hj ⟨addr, haddr, hsub, hlow, port, hport, hlt⟩
      ⟨addr', haddr', hsub', hlow', port', hport', hlt'⟩
    have hvisited := Network.mem_visited hpos hbits hsub hlow
    have hvisited' := Network.mem_visited hpos hbits hsub' hlow'
    have hinv : Regular net s ∧ s.Meets i j (dotted addr) (dotted addr') := by
      apply hrun.invariant (P := fun s => Regular net s ∧ s.Meets i j (dotted addr) (dotted addr'))
      · exact ⟨regular_init, fun hnone => absurd rfl hnone⟩
      · rintro t a u ⟨ht, hmeets⟩ hok hstep
        refine ⟨regular_step ht hstep, ?_⟩
        exact hmeets.step ht hsep ⟨hvisited, hvisited'⟩ ⟨hsub, hsub'⟩ ⟨haddr, haddr'⟩ hok hstep
    cases hinv.2 (by simp [hport]) (by simp [hport']) with
    | inl hawaits => exact .inl (hawaits.found hi hport' hlt')
    | inr hawaits => exact .inr (hawaits.found hj hport hlt)
  · intro i j hj
    obtain ⟨⟨addr, port⟩, htarget, haddr, hport⟩ := (regular_run hrun).found i j hj
    obtain ⟨hvisited, hle, hlt⟩ := Network.mem_targets.mp htarget
    exact ⟨addr, haddr, hvisited, port, hport, hle, hlt⟩

/-- The machines 10.0.0.0 and 10.0.0.1. On the second one another program holds port 1337. -/
def exampleNetwork : Network 2 2 where
  network := [49, 48, 46, 48, 46, 48, 46, 49]
  maskBits := 1
  machines := ![⟨[[49, 50, 55, 46, 48, 46, 48, 46, 49], [49, 48, 46, 48, 46, 48, 46, 48]], []⟩,
    ⟨[[49, 50, 55, 46, 48, 46, 48, 46, 49], [49, 48, 46, 48, 46, 48, 46, 49]], [1337]⟩]
  place := id

/-- The second node starts when the first one has finished its scan. -/
def exampleActions : List (DiscoveryAction 2) :=
  List.flatten [[.start 0, .discoverAll 0, .reach 0 0], List.replicate 15 (.miss 0),
    [.start 1, .discoverAll 1, .reach 1 0], List.replicate 8 (.miss 1), [.reach 1 1],
    List.replicate 6 (.miss 1)]

theorem exampleNetwork_separate : exampleNetwork.Separate := by
  have hall : ∀ a b, ∀ addr ∈ (exampleNetwork.machines a).addresses,
      addr ∈ (exampleNetwork.machines b).addresses → exampleNetwork.InSubnet addr → a = b := by
    decide +kernel
  exact fun a b addr hsubnet ha hb => hall a b addr ha hb hsubnet

theorem example_run : ∃ s, Run (step exampleNetwork) (Answered exampleNetwork) (init 2) s ∧
    s.port 0 = some 1337 ∧ s.port 1 = some 1338 ∧ s.Discovered 0 ∧ s.Discovered 1 := by
  have hend : ((runWhile (step exampleNetwork) (Answered exampleNetwork) (init 2)
      exampleActions).any fun s => decide (s.port 0 = some 1337 ∧ s.port 1 = some 1338 ∧
        s.scan 0 = some [] ∧ s.scan 1 = some [])) = true := by decide +kernel
  cases hrun : runWhile (step exampleNetwork) (Answered exampleNetwork) (init 2) exampleActions with
  | none => simp [hrun] at hend
  | some s =>
    rw [hrun, Option.any_some, decide_eq_true_eq] at hend
    exact ⟨s, .of_runWhile hrun, hend⟩

theorem nodes_meet_on_two_machines :
    ∃ s, Run (step exampleNetwork) (Answered exampleNetwork) (init 2) s ∧
      s.Discovered 0 ∧ s.Discovered 1 ∧ (1 ∈ s.found 0 ∨ 0 ∈ s.found 1) := by
  obtain ⟨s, hrun, hport, hport', hdone, hdone'⟩ := example_run
  refine ⟨s, hrun, hdone, hdone', ?_⟩
  have hreach : s.InReach exampleNetwork 0 :=
    ⟨0x0A000000, by decide +kernel, by decide +kernel, by decide, 1337, hport, by decide⟩
  have hreach' : s.InReach exampleNetwork 1 :=
    ⟨0x0A000001, by decide +kernel, by decide +kernel, by decide, 1338, hport', by decide⟩
  exact (nodes_meet (by decide) (by decide) exampleNetwork_separate hrun).1 0 1 hdone hdone' hreach
    hreach'

/-- No two nodes have the same id, if each machine has an address in the network for itself. -/
theorem ids_differ (hbits : net.maskBits ≤ 31) (hsep : net.Separate)
    (hlocal : ∀ i, net.localAddr i ≠ [])
    (hrun : Run (step net) (fun _ _ => True) (init n) s) {id : NetworkId}
    (hi : s.networkId net i = some id) (hj : s.networkId net j = some id) : i = j := by
  obtain ⟨port, hport, hid⟩ := Option.map_eq_some_iff.mp hi
  obtain ⟨port', hport', hid'⟩ := Option.map_eq_some_iff.mp hj
  obtain ⟨haddr, rfl⟩ := networkIdOf_inj (hid.trans hid'.symm)
  obtain ⟨hmem, hsubnet⟩ := Network.localAddr_spec hbits (hlocal i)
  obtain ⟨hmem', -⟩ := Network.localAddr_spec hbits (hlocal j)
  have hplace := hsep _ _ _ hsubnet hmem (haddr ▸ hmem')
  exact (regular_run hrun).distinct i j port hplace hport hport'

theorem ids_differ_on_two_machines :
    ∃ s, Run (step exampleNetwork) (fun _ _ => True) (init 2) s ∧
      s.networkId exampleNetwork 0 ≠ none ∧ s.networkId exampleNetwork 1 ≠ none ∧
      ∀ id, s.networkId exampleNetwork 0 = some id → s.networkId exampleNetwork 1 ≠ some id := by
  obtain ⟨s, hrun, hport, hport', -, -⟩ := example_run
  have hany := hrun.mono fun _ _ _ => trivial
  refine ⟨s, hany, by simp [networkId, hport], by simp [networkId, hport'], ?_⟩
  intro id hid hid'
  have hlocal : ∀ i, exampleNetwork.localAddr i ≠ [] := by decide +kernel
  exact absurd (ids_differ (by decide) exampleNetwork_separate hlocal hany hid hid') (by decide)

end Discovery

end ParLib
