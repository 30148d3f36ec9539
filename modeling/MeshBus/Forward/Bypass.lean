import MeshBus.Forward.Conflation
import MeshBus.Forward.Drr

/-!
# Forward.Bypass

While a class waits, every other class sends at most its deficit and one quantum for each quantum
the waiting class needs for its head (`bounded_bypass`). The proof keeps an account: `allowance` is
what the other class may still send, no round of the scheduler raises it, and what is sent is taken
from it.
-/

namespace MeshBus
namespace Forward

open Wire
open Control (RouteTable)

/-- The quanta of class `i` that cover `need` bytes. -/
def quantaFor (i : Fin 3) (need : Nat) : Nat :=
  (need + (drrQuantumBytes i - 1)) / drrQuantumBytes i

theorem quantum_pos (i : Fin 3) : 0 < drrQuantumBytes i :=
  Nat.lt_of_lt_of_le (by decide) (LinkQueues.quantum_ge i)

theorem quantaFor_mono (i : Fin 3) {a b : Nat} (h : a ≤ b) : quantaFor i a ≤ quantaFor i b :=
  Nat.div_le_div_right (Nat.add_le_add_right h _)

theorem quantaFor_pos (i : Fin 3) {need : Nat} (h : 0 < need) : 0 < quantaFor i need := by
  have hq := quantum_pos i
  exact Nat.div_pos (by omega) hq

/-- A quantum that does not suffice is one of those needed. -/
theorem quantaFor_succ (i : Fin 3) (need : Nat) :
    quantaFor i (need + drrQuantumBytes i) = quantaFor i need + 1 := by
  rw [quantaFor, quantaFor, Nat.add_right_comm, Nat.add_div_right _ (quantum_pos i)]

theorem drrPriority_inj {i j : Fin 3} (h : drrPriority i = drrPriority j) : i = j := by
  revert i j
  decide

theorem drrPriority_ne_p0 (i : Fin 3) : drrPriority i ≠ .p0 := by
  revert i
  decide

namespace LinkQueues

/-! ## The allowance -/

/-- Class `j` gets its next quantum before class `i` has its turn. -/
def Ahead (state : LinkQueues) (i j : Fin 3) : Prop :=
  (j.val + 3 - state.nextDrr) % 3 < (i.val + 3 - state.nextDrr) % 3 ∧
    (state.nextDrr = j → state.drrNeedsQuantum = true)

instance (state : LinkQueues) (i j : Fin 3) : Decidable (state.Ahead i j) :=
  inferInstanceAs (Decidable (_ ∧ _))

/-- The quanta class `j` can get before class `i` is served, if the head of class `i` is never
longer than `len`. -/
def turnsLeft (state : LinkQueues) (len : Nat) (i j : Fin 3) : Nat :=
  if state.nextDrr = i ∧ state.drrNeedsQuantum = false then
    quantaFor i (len - state.deficitBytes i)
  else quantaFor i (len - state.deficitBytes i) - 1 + if state.Ahead i j then 1 else 0

/-- The bytes class `j` can send before class `i` is served. -/
def allowance (state : LinkQueues) (len : Nat) (i j : Fin 3) : Nat :=
  state.deficitBytes j + state.turnsLeft len i j * drrQuantumBytes j

variable {state state' : LinkQueues} {len : Nat} {i j k : Fin 3}

/-- Class `i` is being visited and has had its quantum. -/
theorem turnsLeft_own (turn : state.nextDrr = i) (hneeds : state.drrNeedsQuantum = false) :
    state.turnsLeft len i j = quantaFor i (len - state.deficitBytes i) := by
  rw [turnsLeft, if_pos ⟨turn, hneeds⟩]

theorem turnsLeft_ahead (hown : ¬ (state.nextDrr = i ∧ state.drrNeedsQuantum = false))
    (h : state.Ahead i j) :
    state.turnsLeft len i j = quantaFor i (len - state.deficitBytes i) - 1 + 1 := by
  rw [turnsLeft, if_neg hown, if_pos h]

theorem turnsLeft_behind (hown : ¬ (state.nextDrr = i ∧ state.drrNeedsQuantum = false))
    (h : ¬ state.Ahead i j) :
    state.turnsLeft len i j = quantaFor i (len - state.deficitBytes i) - 1 := by
  rw [turnsLeft, if_neg hown, if_neg h, Nat.add_zero]

theorem turnsLeft_congr (hdeficit : state'.deficitBytes i = state.deficitBytes i)
    (hown : (state'.nextDrr = i ∧ state'.drrNeedsQuantum = false) ↔
      (state.nextDrr = i ∧ state.drrNeedsQuantum = false))
    (hahead : state'.Ahead i j ↔ state.Ahead i j) :
    state'.turnsLeft len i j = state.turnsLeft len i j := by
  by_cases h : state.nextDrr = i ∧ state.drrNeedsQuantum = false
  · have h' := hown.mpr h
    rw [turnsLeft_own h.1 h.2, turnsLeft_own h'.1 h'.2, hdeficit]
  · have h' := fun own => h (hown.mp own)
    by_cases ha : state.Ahead i j
    · rw [turnsLeft_ahead h ha, turnsLeft_ahead h' (hahead.mpr ha), hdeficit]
    · rw [turnsLeft_behind h ha, turnsLeft_behind h' fun a => ha (hahead.mp a), hdeficit]

theorem SameTurn.allowance_eq (h : SameTurn state state') :
    state'.allowance len i j = state.allowance len i j := by
  have hturns : state'.turnsLeft len i j = state.turnsLeft len i j :=
    turnsLeft_congr (by rw [h.deficit]) (by rw [h.next, h.quantum])
      (by simp only [Ahead, h.next, h.quantum])
  rw [allowance, allowance, h.deficit, hturns]

/-- At the start, the whole head may be missing. -/
theorem turnsLeft_le (hlen : 0 < len) : state.turnsLeft len i j ≤ quantaFor i len := by
  have hmono : quantaFor i (len - state.deficitBytes i) ≤ quantaFor i len :=
    quantaFor_mono i (Nat.sub_le _ _)
  have hpos := quantaFor_pos i hlen
  rw [turnsLeft]
  split
  · exact hmono
  · split <;> omega

/-- The turn passes on from a class that is not `i`. -/
theorem turnsLeft_advance (hij : i ≠ j) (turn : state.nextDrr = k) (hk : k ≠ i)
    (hdeficit : state'.deficitBytes i = state.deficitBytes i)
    (hnext : state'.nextDrr = (state.nextDrr + 1) % 3) (hneeds : state'.drrNeedsQuantum = true) :
    state'.turnsLeft len i j ≤ state.turnsLeft len i j := by
  have hij : i.val ≠ j.val := fun h => hij (Fin.ext h)
  have hki : k.val ≠ i.val := fun h => hk (Fin.ext h)
  have hi := i.isLt
  have hj := j.isLt
  have hk := k.isLt
  have hown : ¬ (state.nextDrr = i ∧ state.drrNeedsQuantum = false) := by
    rw [turn]
    exact fun h => hki h.1
  have hown' : ¬ (state'.nextDrr = i ∧ state'.drrNeedsQuantum = false) := by simp [hneeds]
  by_cases ha : state'.Ahead i j
  · have hbefore : state.Ahead i j := by
      obtain ⟨hlt, -⟩ := ha
      rw [hnext, turn] at hlt
      refine ⟨by rw [turn]; omega, fun hkj => ?_⟩
      omega
    rw [turnsLeft_ahead hown' ha, turnsLeft_ahead hown hbefore, hdeficit]
  · rw [turnsLeft_behind hown' ha, hdeficit]
    by_cases hb : state.Ahead i j
    · rw [turnsLeft_ahead hown hb]
      exact Nat.le_succ _
    · rw [turnsLeft_behind hown hb]

/-- A class other than `i` gets its quantum. -/
theorem allowance_addQuantum (hij : i ≠ j) (turn : state.nextDrr = k) (hk : k ≠ i) :
    (state.addQuantum k).allowance len i j ≤ state.allowance len i j := by
  cases hneeds : state.drrNeedsQuantum with
  | false =>
    have hsame : state.addQuantum k = state := by simp [addQuantum, hneeds]
    rw [hsame]
  | true =>
    have hdi : (state.addQuantum k).deficitBytes i = state.deficitBytes i :=
      addQuantum_deficit_ne state (Ne.symm hk)
    have hnext := addQuantum_nextDrr state k
    have hki : k.val ≠ i.val := fun h => hk (Fin.ext h)
    have hown : ¬ (state.nextDrr = i ∧ state.drrNeedsQuantum = false) := by simp [hneeds]
    have hown' : ¬ ((state.addQuantum k).nextDrr = i ∧
        (state.addQuantum k).drrNeedsQuantum = false) := by
      rw [hnext, turn]
      exact fun h => hki h.1
    rw [allowance, allowance]
    by_cases hkj : k = j
    · -- the quantum of class `j` is one of those it was to get
      subst hkj
      have hbefore : state.Ahead i k := by
        have hi := i.isLt
        have hlt := k.isLt
        refine ⟨?_, fun _ => hneeds⟩
        rw [turn]
        omega
      have hafter : ¬ (state.addQuantum k).Ahead i k := by
        rintro ⟨-, hq⟩
        have hfalse := hq (by rw [hnext, turn])
        rw [addQuantum_quantum] at hfalse
        cases hfalse
      rw [turnsLeft_behind hown' hafter, turnsLeft_ahead hown hbefore, hdi,
        addQuantum_deficit_self, hneeds, if_pos rfl, Nat.succ_mul]
      have hle := satAdd_le (state.deficitBytes k) (drrQuantumBytes k)
      omega
    · have hahead : (state.addQuantum k).Ahead i j ↔ state.Ahead i j := by
        have hne : k.val ≠ j.val := fun h => hkj (Fin.ext h)
        simp only [Ahead, hnext, turn, hne, false_implies]
      rw [addQuantum_deficit_ne state (Ne.symm hkj),
        turnsLeft_congr hdi (iff_of_false hown' hown) hahead]

/-- Class `i` has its turn and is not served. -/
theorem turnsLeft_skip (hij : i ≠ j) (turn : state.nextDrr = i)
    (hmax : (state.addQuantum i).deficitBytes i < u64Max)
    (hshort : (state.addQuantum i).deficitBytes i < len) :
    (state.addQuantum i).advanceDrr.turnsLeft len i j ≤ state.turnsLeft len i j := by
  have hij : i.val ≠ j.val := fun h => hij (Fin.ext h)
  have hi := i.isLt
  have hj := j.isLt
  -- all other classes now come before class `i`
  have hahead : (state.addQuantum i).advanceDrr.Ahead i j := by
    refine ⟨?_, fun _ => rfl⟩
    simp only [advanceDrr, addQuantum_nextDrr, turn]
    omega
  rw [turnsLeft_ahead (by simp [advanceDrr]) hahead]
  have hdeficit : (state.addQuantum i).advanceDrr.deficitBytes i =
      (state.addQuantum i).deficitBytes i := rfl
  have hpos := quantaFor_pos i (Nat.sub_pos_of_lt hshort)
  rw [hdeficit]
  rw [addQuantum_deficit_self] at hmax hshort hpos ⊢
  cases hneeds : state.drrNeedsQuantum with
  | false =>
    rw [turnsLeft_own turn hneeds]
    simp only [hneeds, Bool.false_eq_true, if_false] at hpos ⊢
    omega
  | true =>
    have hbehind : ¬ state.Ahead i j := by
      rintro ⟨hlt, -⟩
      rw [turn] at hlt
      omega
    rw [turnsLeft_behind (by simp [hneeds]) hbehind]
    simp only [hneeds, if_true] at hmax hshort hpos ⊢
    have hgain : satAdd (state.deficitBytes i) (drrQuantumBytes i) =
        state.deficitBytes i + drrQuantumBytes i := by
      rw [satAdd] at hmax ⊢
      omega
    rw [hgain] at hshort hpos ⊢
    have hneed : len - state.deficitBytes i =
        len - (state.deficitBytes i + drrQuantumBytes i) + drrQuantumBytes i := by omega
    rw [hneed, quantaFor_succ]
    omega

/-- What a served class other than `i` sends is taken from the allowance. -/
theorem allowance_served (hij : i ≠ j) (turn : state.nextDrr = k) (hk : k ≠ i)
    (queued : QueuedPacket) (rest : List QueuedPacket)
    (hpays : queued.packet.encodedLen ≤ (state.addQuantum k).deficitBytes k) :
    (state.served k queued rest).allowance len i j +
      (if k = j then queued.packet.encodedLen else 0) ≤ state.allowance len i j := by
  have hquantum : (state.addQuantum k).allowance len i j ≤ state.allowance len i j :=
    allowance_addQuantum hij turn hk
  have hdi : (state.served k queued rest).deficitBytes i = (state.addQuantum k).deficitBytes i := by
    rw [served_deficit_ne state (Ne.symm hk), addQuantum_deficit_ne state (Ne.symm hk)]
  -- the turns left do not rise, whether or not the turn passes on
  have hturns : (state.served k queued rest).turnsLeft len i j ≤
      (state.addQuantum k).turnsLeft len i j := by
    have hturn : (state.addQuantum k).nextDrr = k := by rw [addQuantum_nextDrr, turn]
    rcases state.served_cases k queued rest with ⟨hnext, hneeds, -⟩ | ⟨hnext, hneeds, -⟩
    · exact turnsLeft_advance hij hturn hk hdi (by rw [hnext, addQuantum_nextDrr]) hneeds
    · refine (turnsLeft_congr hdi ?_ ?_).le
      · rw [hnext, hneeds, addQuantum_nextDrr, addQuantum_quantum]
      · rw [Ahead, Ahead, hnext, hneeds, addQuantum_nextDrr, addQuantum_quantum]
  have hmul := Nat.mul_le_mul_right (drrQuantumBytes j) hturns
  have hdj : (state.served k queued rest).deficitBytes j +
      (if k = j then queued.packet.encodedLen else 0) ≤ (state.addQuantum k).deficitBytes j := by
    by_cases hkj : k = j
    · subst hkj
      rw [if_pos rfl]
      rcases state.served_cases k queued rest with ⟨-, -, hzero⟩ | ⟨-, -, hpaid⟩
      · omega
      · omega
    · rw [if_neg hkj, Nat.add_zero, served_deficit_ne state (Ne.symm hkj),
        addQuantum_deficit_ne state (Ne.symm hkj)]
  rw [allowance] at hquantum ⊢
  omega

/-! ## Rounds -/

/-- The bytes of class `j` among some packets. -/
def classLen (j : Fin 3) (packets : List QueuedPacket) : Nat :=
  queueLen (packets.filter fun q => q.packet.header.priority = drrPriority j)

/-- Class `i` waits with a head that is not longer than `len` and fits the credit. -/
def HeadWaits (state : LinkQueues) (i : Fin 3) (len : Nat) : Prop :=
  ∃ queued rest, state.queues (drrPriority i) = queued :: rest ∧ queued.packet.encodedLen ≤ len ∧
    queued.packet.encodedLen ≤ state.availableCreditBytes

theorem Rounds.allowance {sent : Option QueuedPacket} (h : Rounds state state' sent)
    (hij : i ≠ j) (hwait : state.HeadWaits i len)
    (hclassed : state.ClassedQueues)
    (hnot : ∀ q, sent = some q → q.packet.header.priority ≠ drrPriority i) :
    state'.allowance len i j + classLen j sent.toList ≤ state.allowance len i j := by
  induction h with
  | stop fits => exact le_rfl
  | @empty state state' sent k fits turn queue next ih =>
    have hk : k ≠ i := by
      rintro rfl
      obtain ⟨queued, rest, hqueue, -⟩ := hwait
      rw [queue] at hqueue
      cases hqueue
    refine (ih hwait hclassed hnot).trans ?_
    have hdi : (state.clearDeficit k).advanceDrr.deficitBytes i = state.deficitBytes i :=
      Function.update_of_ne (Ne.symm hk) _ _
    have hdj : (state.clearDeficit k).advanceDrr.deficitBytes j ≤ state.deficitBytes j := by
      simp only [advanceDrr, clearDeficit]
      by_cases hkj : j = k
      · subst hkj
        rw [Function.update_self]
        exact Nat.zero_le _
      · rw [Function.update_of_ne hkj]
    have hturns : (state.clearDeficit k).advanceDrr.turnsLeft len i j ≤ state.turnsLeft len i j :=
      turnsLeft_advance hij turn hk hdi rfl rfl
    have hmul := Nat.mul_le_mul_right (drrQuantumBytes j) hturns
    rw [LinkQueues.allowance, LinkQueues.allowance]
    omega
  | @skip state state' sent k queued rest fits turn queue waits next ih =>
    have hnext : (state.addQuantum k).advanceDrr.queues = state.queues := by simp
    refine (ih ?_ ?_ hnot).trans ?_
    · obtain ⟨q, rest', hqueue, hlen, hcredit⟩ := hwait
      exact ⟨q, rest', hnext ▸ hqueue, hlen, by simpa [advanceDrr] using hcredit⟩
    · rw [ClassedQueues, hnext]
      exact hclassed
    · by_cases hk : k = i
      · subst hk
        obtain ⟨q, rest', hqueue, hlen, hcredit⟩ := hwait
        rw [queue] at hqueue
        cases hqueue
        have hdj : (state.addQuantum k).advanceDrr.deficitBytes j = state.deficitBytes j :=
          addQuantum_deficit_ne state (Ne.symm hij)
        have hmax := queued.packet.encodedLen_le
        have hturns : (state.addQuantum k).advanceDrr.turnsLeft len k j ≤
            state.turnsLeft len k j := turnsLeft_skip hij turn (by omega) (by omega)
        have hmul := Nat.mul_le_mul_right (drrQuantumBytes j) hturns
        rw [LinkQueues.allowance, LinkQueues.allowance, hdj]
        omega
      · refine le_trans ?_ (allowance_addQuantum hij turn hk)
        have hturn : (state.addQuantum k).nextDrr = k := by rw [addQuantum_nextDrr, turn]
        have hturns : (state.addQuantum k).advanceDrr.turnsLeft len i j ≤
            (state.addQuantum k).turnsLeft len i j := turnsLeft_advance hij hturn hk rfl rfl rfl
        have hmul := Nat.mul_le_mul_right (drrQuantumBytes j) hturns
        have hdj : (state.addQuantum k).advanceDrr.deficitBytes j =
            (state.addQuantum k).deficitBytes j := rfl
        rw [LinkQueues.allowance, LinkQueues.allowance, hdj]
        omega
  | @serve state k queued rest turn queue deficit credit =>
    have hclass : queued.packet.header.priority = drrPriority k :=
      hclassed (drrPriority k) queued (queue ▸ List.mem_cons_self)
    have hk : k ≠ i := by
      rintro rfl
      exact hnot queued rfl hclass
    have hlen : classLen j (some queued).toList =
        if k = j then queued.packet.encodedLen else 0 := by
      by_cases hkj : k = j
      · subst hkj
        simp [classLen, hclass]
      · have hne : drrPriority k ≠ drrPriority j := fun h => hkj (drrPriority_inj h)
        simp [classLen, hclass, hne, hkj]
    rw [hlen]
    exact allowance_served hij turn hk queued rest deficit

theorem Tries.allowance {sent : Option QueuedPacket} (h : Tries state state' sent) (hij : i ≠ j)
    (hwait : state.writable = true → state.HeadWaits i len) (hclassed : state.ClassedQueues)
    (hnot : ∀ q, sent = some q → q.packet.header.priority ≠ drrPriority i) :
    state'.allowance len i j + classLen j sent.toList ≤ state.allowance len i j := by
  cases h with
  | noPermit permit => exact le_rfl
  | short permit queued rest front credit => exact le_rfl
  | first permit queued rest front credit =>
    have hsame : SameTurn state (state.popFront .p0 queued rest) := ⟨rfl, rfl, rfl⟩
    have hclass := hclassed .p0 queued (front ▸ List.mem_cons_self)
    have hzero : classLen j (some queued).toList = 0 := by
      simp [classLen, hclass, (drrPriority_ne_p0 j).symm]
    rw [hsame.allowance_eq, hzero, Nat.add_zero]
  | rounds permit noFirst rounds => exact rounds.allowance hij (hwait permit) hclassed hnot

/-! ## Operations -/

/-- The head of every queue that is not empty fits the credit. -/
def HeadsFit (state : LinkQueues) : Prop :=
  ∀ priority queued rest, state.queues priority = queued :: rest →
    queued.packet.encodedLen ≤ state.availableCreditBytes

/-- A permit for a link whose heads fit the credit. -/
theorem permit_allowance {log : List LinkAct} (hij : i ≠ j) (hclassed : state.ClassedQueues)
    {queued : QueuedPacket} {rest : List QueuedPacket}
    (hqueue : state.queues (drrPriority i) = queued :: rest)
    (hlen : queued.packet.encodedLen ≤ len) (hfit : state.HeadsFit)
    (h : state.apply .writable = some (state', log))
    (hnot : ∀ q ∈ sends log, q.packet.header.priority ≠ drrPriority i) :
    state'.allowance len i j + classLen j (sends log) ≤ state.allowance len i j := by
  cases apply_applied h with
  | refused href => cases href
  | tried sent href tries =>
    rw [sends_append, sends_store, List.nil_append, sends_map_send] at hnot ⊢
    have hturn : (state.store .writable).1.allowance len i j = state.allowance len i j :=
      (state.store_turn .writable).allowance_eq
    rw [← hturn]
    refine tries.allowance hij (fun _ => ?_) hclassed fun q hq => hnot q (by simp [hq])
    exact ⟨queued, rest, hqueue, hlen, hfit _ _ _ hqueue⟩

/-- Without a permit nothing is sent, and no turn passes on. -/
theorem apply_quiet {op : LinkOp} {log : List LinkAct} (hw : state.writable = false)
    (hop : op ≠ .writable) (h : state.apply op = some (state', log)) :
    sends log = [] ∧ SameTurn state state' ∧ state'.writable = false := by
  cases apply_applied h with
  | refused href => exact ⟨rfl, ⟨rfl, rfl, rfl⟩, hw⟩
  | tried sent href tries =>
    have hstore : (state.store op).1.writable = false := by
      cases op with
      | enqueue queued => exact (state.store_enqueue_permit queued).2.1.trans hw
      | credit bytes => exact hw
      | writable => exact absurd rfl hop
    rw [sends_append, sends_store, List.nil_append, sends_map_send]
    have hpermit : (state.store op).1.writable ≠ true := by rw [hstore]; simp
    cases tries with
    | noPermit permit => exact ⟨rfl, state.store_turn op, hstore⟩
    | short permit => exact absurd permit hpermit
    | first permit => exact absurd permit hpermit
    | rounds permit => exact absurd permit hpermit

theorem run_quiet : ∀ {ops : List LinkOp} {state state' : LinkQueues} {log : List LinkAct},
    state.writable = false → (∀ op ∈ ops, op ≠ .writable) →
    emitAll LinkQueues.apply state ops = some (state', log) →
    sends log = [] ∧ SameTurn state state' := by
  intro ops
  induction ops with
  | nil =>
    intro state state' log _ _ h
    cases h
    exact ⟨rfl, ⟨rfl, rfl, rfl⟩⟩
  | cons op ops ih =>
    intro state state' log hw hops h
    obtain ⟨state1, out, rest, h1, h2, rfl⟩ := emitAll_cons_inv h
    obtain ⟨hsent, hturn, hw1⟩ := apply_quiet hw (hops op List.mem_cons_self) h1
    obtain ⟨hsents, hturns⟩ := ih hw1 (fun o ho => hops o (List.mem_cons_of_mem _ ho)) h2
    rw [sends_append, hsent, hsents]
    exact ⟨rfl, hturns.deficit.trans hturn.deficit, hturns.next.trans hturn.next,
      hturns.quantum.trans hturn.quantum⟩

/-- A link that could send has no permit left. -/
theorem Idle.not_writable (hidle : state.Idle) (hne : state.queues (drrPriority i) ≠ [])
    (hfit : state.writable = true → state.HeadsFit) : state.writable = false := by
  cases hw : state.writable with
  | false => rfl
  | true =>
    obtain ⟨queued, rest, hqueue⟩ := List.exists_cons_of_ne_nil hne
    have hall := hfit hw
    rcases hidle hw with ⟨q, qs, hp0, hshort⟩ | ⟨-, hshort⟩
    · have hle := hall .p0 q qs hp0
      omega
    · have hle := hall _ _ _ hqueue
      have hlt := hshort _ _ _ hqueue
      omega

end LinkQueues

namespace Forwarder

/-! ## Runs -/

/-- Before the event, class `i` of link `l` waits with a head not longer than `len`; and if the link
has a permit, or gets one, all its heads fit the credit. -/
structure Waits (l : LinkId) (i : Fin 3) (len : Nat) (f : Forwarder)
    (e : MonoTime × ForwardEvent) : Prop where
  head : ∃ queued rest, (f.linkState l).queues (drrPriority i) = queued :: rest ∧
    queued.packet.encodedLen ≤ len
  fit : (f.linkState l).writable = true ∨ e.2 = .linkWritable l → (f.linkState l).HeadsFit

theorem Waits.ne_nil {l : LinkId} {i : Fin 3} {len : Nat} {f : Forwarder}
    {e : MonoTime × ForwardEvent} (h : Waits l i len f e) :
    (f.linkState l).queues (drrPriority i) ≠ [] := by
  obtain ⟨queued, rest, hqueue, -⟩ := h.head
  rw [hqueue]
  simp

/-- The bytes of class `j` among some packets. -/
def classBytes (j : Fin 3) (packets : List ForwardPacket) : Nat :=
  ((packets.filter fun p => p.header.priority = drrPriority j).map ForwardPacket.encodedLen).sum

theorem classBytes_append (j : Fin 3) (a b : List ForwardPacket) :
    classBytes j (a ++ b) = classBytes j a + classBytes j b := by
  simp [classBytes]

theorem classBytes_map (j : Fin 3) (packets : List QueuedPacket) :
    classBytes j (packets.map QueuedPacket.packet) = LinkQueues.classLen j packets := by
  simp [classBytes, LinkQueues.classLen, queueLen, List.filter_map, Function.comp_def]

variable {l : LinkId} {i j : Fin 3} {len : Nat}

theorem handle_allowance {f f' : Forwarder} {e : MonoTime × ForwardEvent}
    {acts : List ForwardAction} (hij : i ≠ j) (hidle : (f.linkState l).Idle) (hclassed : f.Classed)
    (hwaits : Waits l i len f e) (hup : e.2 ≠ .linkDown l)
    (hnot : ∀ p ∈ sentTo l acts, p.header.priority ≠ drrPriority i)
    (h : f.handle e.1 e.2 = some (f', acts)) :
    (f'.linkState l).allowance len i j + classBytes j (sentTo l acts) ≤
      (f.linkState l).allowance len i j := by
  obtain ⟨log, hrun, hsent⟩ := handle_link h l
  rw [prepared_linkState hup] at hrun
  rw [hsent] at hnot
  rw [hsent, classBytes_map]
  have hnotq : ∀ q ∈ sends log, q.packet.header.priority ≠ drrPriority i :=
    fun q hq => hnot q.packet (List.mem_map_of_mem hq)
  by_cases hpermit : e.2 = .linkWritable l
  · obtain ⟨queued, rest, hqueue, hlen⟩ := hwaits.head
    rw [hpermit, ops] at hrun
    split at hrun
    · obtain ⟨state1, out, more, happly, hnil, rfl⟩ := emitAll_cons_inv hrun
      obtain ⟨rfl, rfl⟩ := Prod.mk.inj (Option.some.inj hnil)
      rw [List.append_nil] at hnotq ⊢
      exact LinkQueues.permit_allowance hij (hclassed.queues l) hqueue hlen
        (hwaits.fit (.inr hpermit)) happly hnotq
    · obtain ⟨hsame, rfl⟩ := Prod.mk.inj (Option.some.inj hrun)
      rw [← hsame]
      exact le_rfl
  · -- the link has no permit, and gets none
    have hw := hidle.not_writable hwaits.ne_nil fun hw => hwaits.fit (.inl hw)
    have hops : ∀ op ∈ f.ops e.1 l e.2, op ≠ .writable := by
      intro op hop
      rcases mem_ops hop with ⟨c, -, rfl⟩ | ⟨bytes, -, rfl⟩ | ⟨heq, -⟩
      · simp
      · simp
      · exact absurd heq hpermit
    obtain ⟨hnone, hturn⟩ := LinkQueues.run_quiet hw hops hrun
    rw [hnone, hturn.allowance_eq]
    exact le_rfl

/-- A failed link has nothing queued. -/
theorem not_linkDown_of_queue {now : MonoTime} {f f' : Forwarder} {event : ForwardEvent}
    {acts : List ForwardAction} {priority : Priority} (hf' : f'.UpLinks)
    (hne : (f'.linkState l).queues priority ≠ []) (h : f.handle now event = some (f', acts)) :
    event ≠ .linkDown l := by
  refine (up_of_mem hf' ?_ h).1
  cases hstate : f'.links[l]? with
  | some state => exact OrdMap.mem_iff_get.mpr ⟨state, hstate⟩
  | none =>
    rw [linkState, hstate] at hne
    exact absurd rfl hne

theorem run_allowance (hij : i ≠ j) : ∀ {events : List (MonoTime × ForwardEvent)}
    {f f' : Forwarder} {acts : List ForwardAction}, f.UpLinks → (f.linkState l).Idle → f.Classed →
    Along (fun f e => f.handle e.1 e.2) (Waits l i len) f events →
    (f'.linkState l).queues (drrPriority i) ≠ [] →
    (∀ p ∈ sentTo l acts, p.header.priority ≠ drrPriority i) →
    f.run events = some (f', acts) →
    (f'.linkState l).allowance len i j + classBytes j (sentTo l acts) ≤
      (f.linkState l).allowance len i j := by
  intro events
  induction events with
  | nil =>
    intro f f' acts _ _ _ _ _ _ h
    cases h
    exact le_rfl
  | cons e events ih =>
    intro f f' acts hup hidle hclassed halong hlast hnot h
    obtain ⟨f1, out, rest, h1, h2, rfl⟩ := emitAll_cons_inv h
    have halong1 := halong.2 f1 out h1
    have hne : (f1.linkState l).queues (drrPriority i) ≠ [] := by
      cases events with
      | nil =>
        cases h2
        exact hlast
      | cons e2 events => exact halong1.1.ne_nil
    rw [sentTo_append] at hnot
    have hup1 := hup.handle h1
    have hidle1 : (f1.linkState l).Idle := handle_link_inv (R := fun _ => True)
      (fun hw => by cases hw) (fun _ _ _ _ hq _ happly => hq.apply happly) (fun _ _ => trivial)
      hidle h1
    have hone := handle_allowance hij hidle hclassed halong.1 (not_linkDown_of_queue hup1 hne h1)
      (fun p hp => hnot p (List.mem_append_left _ hp)) h1
    have hrest := ih hup1 hidle1 ((handle_handled h1).classed hclassed) halong1 hlast
      (fun p hp => hnot p (List.mem_append_right _ hp)) h2
    rw [sentTo_append, classBytes_append]
    omega

/-- Class `i` of a link waits all through a run and is not served; all heads fit the credit whenever
the link has a permit, and the head of class `i` is never longer than `len`. Then class `j` sends at
most its deficit and one quantum for each quantum class `i` needs for `len` bytes. P0 packets may be
sent meanwhile. -/
theorem bounded_bypass {me : NodeId} {routes : RouteTable}
    {before since : List (MonoTime × ForwardEvent)} {f0 f : Forwarder}
    {acts0 acts : List ForwardAction} (h0 : (new me routes).run before = some (f0, acts0))
    (h : f0.run since = some (f, acts)) (hij : i ≠ j)
    (hwaits : Along (fun f e => f.handle e.1 e.2) (Waits l i len) f0 since)
    (hlast : (f.linkState l).queues (drrPriority i) ≠ [])
    (hnot : ∀ p ∈ sentTo l acts, p.header.priority ≠ drrPriority i) :
    classBytes j (sentTo l acts) ≤ (f0.linkState l).deficitBytes j +
      (len + (drrQuantumBytes i - 1)) / drrQuantumBytes i * drrQuantumBytes j := by
  have hclassed : f0.Classed := Reachable.classed ⟨me, routes, before, acts0, h0⟩
  have hrun := run_allowance hij (run_upLinks h0) (run_idle h0 l) hclassed hwaits hlast hnot h
  cases since with
  | nil =>
    cases h
    exact Nat.zero_le _
  | cons e since =>
    obtain ⟨queued, rest, -, hlen⟩ := hwaits.1.head
    have hpos : 0 < queued.packet.encodedLen := queued.packet.encodedLen_pos
    have hturns := (f0.linkState l).turnsLeft_le (i := i) (j := j) (hpos.trans_le hlen)
    have hmul := Nat.mul_le_mul_right (drrQuantumBytes j) hturns
    rw [LinkQueues.allowance, LinkQueues.allowance] at hrun
    rw [quantaFor] at hmul
    omega

instance (l : LinkId) : (event : ForwardEvent) → Decidable (event = .linkWritable l)
  | .linkWritable link => decidable_of_iff (link = l) (by simp)
  | .outbound _ | .outboundMulticast _ _ | .inbound _ _ | .routesUpdated _ | .linkCredit _ _
  | .linkDown _ | .timer _ => .isFalse (by simp)

instance (state : LinkQueues) : Decidable state.HeadsFit :=
  decidable_of_iff (∀ priority ∈ [Priority.p0, .p1, .p2, .p3],
      ((state.queues priority).head?.all fun q =>
        decide (q.packet.encodedLen ≤ state.availableCreditBytes)) = true) (by
    refine ⟨fun h priority queued rest hqueue => ?_, fun h priority _ => ?_⟩
    · have hall := h priority (by cases priority <;> simp)
      rw [hqueue] at hall
      simpa using hall
    · cases hqueue : state.queues priority with
      | nil => rfl
      | cons queued rest => simpa using h priority queued rest hqueue)

instance (l : LinkId) (i : Fin 3) (len : Nat) (f : Forwarder) (e : MonoTime × ForwardEvent) :
    Decidable (Waits l i len f e) :=
  decidable_of_iff (((f.linkState l).queues (drrPriority i)).head?.any
      (fun q => decide (q.packet.encodedLen ≤ len)) = true ∧
      ((f.linkState l).writable = true ∨ e.2 = .linkWritable l → (f.linkState l).HeadsFit)) (by
    refine ⟨fun h => ⟨?_, h.2⟩, fun h => ⟨?_, h.fit⟩⟩
    · cases hqueue : (f.linkState l).queues (drrPriority i) with
      | nil => simp [hqueue] at h
      | cons queued rest => exact ⟨queued, rest, rfl, by simpa [hqueue] using h.1⟩
    · obtain ⟨queued, rest, hqueue, hlen⟩ := h.head
      simpa [hqueue] using hlen)

/-- Two P1 packets and a P3 packet wait on link 7; the first permit goes to P1. -/
theorem bounded_bypass_waiting : ∃ f0 acts0 f acts,
    (new (.ofByte 1) sampleRoutes).run
      [(0, .outbound (samplePacket .unicast .p1 .empty (.ofByte 2))),
        (0, .outbound (samplePacket .unicast .p1 .empty (.ofByte 2))),
        (0, .outbound (samplePacket .unicast .p3 .empty (.ofByte 2))),
        (0, .linkCredit 7 500)] = some (f0, acts0) ∧
    f0.run [(1, .linkWritable 7)] = some (f, acts) ∧
    (sentTo 7 acts).length = 1 ∧
    classBytes 0 (sentTo 7 acts) ≤ (f0.linkState 7).deficitBytes 0 + 1 * drrQuantumBytes 0 := by
  have h : (((new (.ofByte 1) sampleRoutes).run
      [(0, .outbound (samplePacket .unicast .p1 .empty (.ofByte 2))),
        (0, .outbound (samplePacket .unicast .p1 .empty (.ofByte 2))),
        (0, .outbound (samplePacket .unicast .p3 .empty (.ofByte 2))),
        (0, .linkCredit 7 500)]).bind fun r => (r.1.run [(1, .linkWritable 7)]).map fun s =>
      decide ((sentTo 7 s.2).length = 1 ∧ Waits 7 2 89 r.1 (1, .linkWritable 7) ∧
        (s.1.linkState 7).queues (drrPriority 2) ≠ [] ∧
        ∀ p ∈ sentTo 7 s.2, p.header.priority ≠ drrPriority 2)) = some true := by
    decide +kernel
  simp only [Option.bind_eq_some_iff, Option.map_eq_some_iff] at h
  obtain ⟨⟨f0, acts0⟩, hrun0, ⟨f, acts⟩, hrun, hall⟩ := h
  obtain ⟨hlen, hwaits, hlast, hnot⟩ := of_decide_eq_true hall
  have hbound := bounded_bypass (j := 0) hrun0 hrun (by decide) ⟨hwaits, fun _ _ _ => trivial⟩ hlast
    hnot
  exact ⟨f0, acts0, f, acts, hrun0, hrun, hlen, hbound⟩

end Forwarder
end Forward
end MeshBus
