import MeshBus.Forward.Flow

/-!
# Forward.Drr

The rounds of the round robin and its deficits.

The loop ends from every state, and it sends if and only if a head of its classes fits the credit
(`drrLoop_ends`).

A class whose head exceeds the credit gains a quantum in every round in which another class is
served, so its deficit has no bound (`deficit_unbounded`). If a link gets a permit only with the
credit for the longest packet, no deficit exceeds one quantum and the longest packet
(`deficit_bounded`).
-/

namespace MeshBus
namespace Forward

open Wire
open Control (RouteTable)

namespace LinkQueues

/-! ## The loop -/

/-- More rounds than the loop needs change nothing. -/
theorem drrLoop_mono {fuel more : Nat} {state : LinkQueues}
    {r : LinkQueues × Option QueuedPacket} (h : drrLoop fuel state = some r)
    (hle : fuel ≤ more) : drrLoop more state = some r := by
  induction fuel generalizing more state with
  | zero => cases h
  | succ fuel ih =>
    cases more with
    | zero => omega
    | succ more =>
      have hle : fuel ≤ more := by omega
      simp only [drrLoop] at h ⊢
      split at h
      · rename_i hfits
        rwa [if_pos hfits]
      · rename_i hfits
        rw [if_neg hfits]
        split at h
        · rename_i hlt
          rw [dif_pos hlt]
          split at h
          · exact ih h hle
          · split at h
            · rename_i hwait
              rw [if_pos hwait]
              exact ih h hle
            · rename_i hgo
              rwa [if_neg hgo]
        · cases h

theorem aPacketFitsCredit_iff (state : LinkQueues) : state.aPacketFitsCredit = true ↔
    ∃ i queued rest, state.queues (drrPriority i) = queued :: rest ∧
      queued.packet.encodedLen ≤ state.availableCreditBytes := by
  refine ⟨exists_head_of_fits, ?_⟩
  rintro ⟨i, queued, rest, hqueue, hfits⟩
  have hhead : state.headFits (drrPriority i) = true := by
    simpa [headFits, hqueue] using hfits
  have hi : i = 0 ∨ i = 1 ∨ i = 2 := by
    fin_cases i <;> decide
  simp only [aPacketFitsCredit, Bool.or_eq_true]
  rcases hi with rfl | rfl | rfl
  · exact .inl (.inl hhead)
  · exact .inl (.inr hhead)
  · exact .inr hhead

/-- A round that sends nothing keeps the queues and the credit, hence whether a head fits. -/
theorem Rounds.sent_iff {state state' : LinkQueues} {sent : Option QueuedPacket}
    (h : Rounds state state' sent) : sent.isSome = true ↔ ∃ i queued rest,
      state.queues (drrPriority i) = queued :: rest ∧
        queued.packet.encodedLen ≤ state.availableCreditBytes := by
  induction h with
  | stop fits =>
    rw [← aPacketFitsCredit_iff, fits]
    simp
  | empty i fits turn queue next ih =>
    simpa [advanceDrr, clearDeficit] using ih
  | skip i queued rest fits turn queue waits next ih =>
    simpa [advanceDrr] using ih
  | serve i queued rest turn queue deficit credit =>
    exact ⟨fun _ => ⟨i, queued, rest, queue, credit⟩, fun _ => rfl⟩

/-- From every state the loop ends after finitely many rounds, the turn again in range. It ends with
a packet if and only if the head of some P1 to P3 queue fits the credit, and with a permit and no P0
packet this is what `try_send_one` does. -/
theorem drrLoop_ends (state : LinkQueues) (h : state.nextDrr < 3) : ∃ state' sent,
    (∀ fuel, state.drrFuel ≤ fuel → drrLoop fuel state = some (state', sent)) ∧
    state'.nextDrr < 3 ∧
    (sent.isSome = true ↔ ∃ i queued rest, state.queues (drrPriority i) = queued :: rest ∧
      queued.packet.encodedLen ≤ state.availableCreditBytes) ∧
    (state.writable = true → state.queues .p0 = [] →
      state.trySendOne = some (state', sent)) := by
  obtain ⟨⟨state', sent⟩, hloop, hlt⟩ := drrLoop_drrFuel h
  refine ⟨state', sent, fun fuel hfuel => drrLoop_mono hloop hfuel, hlt,
    (drrLoop_rounds hloop).sent_iff, ?_⟩
  intro hwritable hp0
  simp [trySendOne, hwritable, hp0, hloop]

/-- A P1 head of 4088 bytes and a P3 head of 2088 bytes with the credit for the latter, which needs
more than one quantum. -/
def longHeads : LinkQueues :=
  let packet (priority : Priority) (len : Nat) : QueuedPacket :=
    ⟨none, { Forwarder.samplePacket .unicast priority .empty (.ofByte 2) with
      payload := List.replicate len 42 }⟩
  { (default : LinkQueues) with
    queues := fun
      | .p1 => [packet .p1 4000]
      | .p3 => [packet .p3 2000]
      | _ => []
    availableCreditBytes := 2088
    writable := true }

/-- The P3 head is sent although the P1 head has the first turn. -/
theorem drrLoop_ends_longHeads : longHeads.nextDrr < 3 ∧
    ∃ state' queued, longHeads.trySendOne = some (state', some queued) := by
  refine ⟨by decide, ?_⟩
  obtain ⟨state', sent, -, -, hsent, htry⟩ := drrLoop_ends longHeads (by decide)
  have hsome : sent.isSome = true := hsent.mpr ⟨2, _, _, rfl, by decide +kernel⟩
  obtain ⟨queued, rfl⟩ := Option.isSome_iff_exists.mp hsome
  exact ⟨state', queued, htry rfl rfl⟩

/-! ## The deficits -/

theorem addQuantum_deficit_self (state : LinkQueues) (i : Fin 3) :
    (state.addQuantum i).deficitBytes i =
      if state.drrNeedsQuantum then satAdd (state.deficitBytes i) (drrQuantumBytes i)
      else state.deficitBytes i := by
  rw [addQuantum]
  split
  · exact Function.update_self _ _ _
  · rfl

theorem satAdd_le (a b : Nat) : satAdd a b ≤ a + b := Nat.min_le_left _ _

@[simp] theorem addQuantum_quantum (state : LinkQueues) (i : Fin 3) :
    (state.addQuantum i).drrNeedsQuantum = false := by
  rw [addQuantum]
  split
  · rfl
  · rename_i h
    simpa using h

/-- The deficits of the classes that are not served stay. -/
theorem served_deficit_ne (state : LinkQueues) {i j : Fin 3} (hj : j ≠ i) (queued : QueuedPacket)
    (rest : List QueuedPacket) :
    (state.served i queued rest).deficitBytes j = state.deficitBytes j := by
  have hne := addQuantum_deficit_ne state hj
  simp only [served]
  split
  · simp [popFront, clearDeficit, advanceDrr, Function.update_of_ne hj, hne]
  · simp [popFront, Function.update_of_ne hj, hne]

/-- A served class that runs empty loses its deficit and its turn, otherwise it pays for the packet
and stays. -/
theorem served_cases (state : LinkQueues) (i : Fin 3) (queued : QueuedPacket)
    (rest : List QueuedPacket) :
    ((state.served i queued rest).nextDrr = (state.nextDrr + 1) % 3 ∧
      (state.served i queued rest).drrNeedsQuantum = true ∧
      (state.served i queued rest).deficitBytes i = 0) ∨
    ((state.served i queued rest).nextDrr = state.nextDrr ∧
      (state.served i queued rest).drrNeedsQuantum = false ∧
      (state.served i queued rest).deficitBytes i =
        (state.addQuantum i).deficitBytes i - queued.packet.encodedLen) := by
  simp only [served]
  split
  · exact .inl ⟨by simp [popFront, clearDeficit, advanceDrr], rfl,
      by simp [clearDeficit, advanceDrr]⟩
  · exact .inr ⟨by simp [popFront], by simp [popFront], by simp [popFront]⟩

/-! ## Deficits of classes that always fit the credit -/

/-- A class that is not being visited has less than the longest packet; the quantum of the visit
comes on top. -/
structure Paced (state : LinkQueues) : Prop where
  visited : ∀ i, state.deficitBytes i ≤ drrQuantumBytes i + maxPayloadLen
  others : ∀ i : Fin 3, ¬ (state.nextDrr = i ∧ state.drrNeedsQuantum = false) →
    state.deficitBytes i ≤ maxPayloadLen

theorem Paced.of_others {state : LinkQueues}
    (h : ∀ i, state.deficitBytes i ≤ maxPayloadLen) : state.Paced :=
  ⟨fun i => (h i).trans (Nat.le_add_left _ _), fun i _ => h i⟩

theorem Paced.turn {state state' : LinkQueues} (h : state.Paced) (ht : SameTurn state state') :
    state'.Paced := by
  refine ⟨?_, ?_⟩
  · rw [ht.deficit]
    exact h.visited
  · rw [ht.deficit, ht.next, ht.quantum]
    exact h.others

/-- The quantum of a visit. -/
theorem Paced.addQuantum_le {state : LinkQueues} (h : state.Paced) {i : Fin 3} :
    (state.addQuantum i).deficitBytes i ≤ drrQuantumBytes i + maxPayloadLen := by
  rw [addQuantum_deficit_self]
  split
  · rename_i hneeds
    have hle := h.others i (by simp [hneeds])
    have hsum := satAdd_le (state.deficitBytes i) (drrQuantumBytes i)
    omega
  · exact h.visited i

/-- With the credit for every head, a class is skipped for its deficit only. -/
theorem Rounds.paced {state state' : LinkQueues} {sent : Option QueuedPacket}
    (h : Rounds state state' sent) (hs : state.Paced)
    (hshort : ∀ priority, ∀ q ∈ state.queues priority, q.packet.encodedLen ≤ maxPayloadLen)
    (hcredit : maxPayloadLen ≤ state.availableCreditBytes) : state'.Paced := by
  induction h with
  | stop fits => exact hs
  | @empty state _ _ i fits turn queue next ih =>
    refine ih (.of_others fun j => ?_) hshort hcredit
    by_cases hj : j = i
    · subst hj
      simp [advanceDrr, clearDeficit]
    · simp only [advanceDrr, clearDeficit, Function.update_of_ne hj]
      exact hs.others j fun hturn => hj (Fin.ext (hturn.1.symm.trans turn))
  | @skip state _ _ i queued rest fits turn queue waits next ih =>
    have hlen := hshort (drrPriority i) queued (queue ▸ List.mem_cons_self)
    refine ih (.of_others fun j => ?_) (by simpa using hshort) (by simpa [advanceDrr] using hcredit)
    by_cases hj : j = i
    · subst hj
      simp only [advanceDrr]
      omega
    · simp only [advanceDrr, addQuantum_deficit_ne state hj]
      exact hs.others j fun hturn => hj (Fin.ext (hturn.1.symm.trans turn))
  | @serve state i queued rest turn queue deficit credit =>
    have hvisited : (state.addQuantum i).deficitBytes i ≤ drrQuantumBytes i + maxPayloadLen :=
      hs.addQuantum_le
    have hrest : ∀ j, j ≠ i → (state.served i queued rest).deficitBytes j ≤ maxPayloadLen := by
      intro j hj
      rw [served_deficit_ne state hj]
      exact hs.others j fun hturn => hj (Fin.ext (hturn.1.symm.trans turn))
    rcases state.served_cases i queued rest with ⟨hnext, hneeds, hself⟩ | ⟨hnext, hneeds, hself⟩
    · refine .of_others fun j => ?_
      by_cases hj : j = i
      · subst hj
        omega
      · exact hrest j hj
    · refine ⟨fun j => ?_, fun j hturn => ?_⟩
      · by_cases hj : j = i
        · subst hj
          omega
        · exact (hrest j hj).trans (Nat.le_add_left _ _)
      · refine hrest j fun hj => hturn ⟨?_, hneeds⟩
        rw [hnext, turn, hj]

theorem Tries.paced {state state' : LinkQueues} {sent : Option QueuedPacket}
    (h : Tries state state' sent) (hs : state.Paced)
    (hshort : ∀ priority, ∀ q ∈ state.queues priority, q.packet.encodedLen ≤ maxPayloadLen)
    (hcredit : state.writable = true → maxPayloadLen ≤ state.availableCreditBytes) :
    state'.Paced := by
  cases h with
  | noPermit permit => exact hs
  | short permit queued rest front credit => exact hs
  | first permit queued rest front credit => exact hs.turn ⟨rfl, rfl, rfl⟩
  | rounds permit noFirst rounds => exact rounds.paced hs hshort (hcredit permit)

/-- The queues are in order, the deficits bounded, and a permit comes with the credit for the
longest packet. -/
structure Steady (state : LinkQueues) : Prop where
  represented : state.Represented
  paced : state.Paced
  permit : state.writable = true → maxPayloadLen ≤ state.availableCreditBytes

theorem steady_default : (default : LinkQueues).Steady :=
  ⟨represented_default, ⟨fun _ => Nat.zero_le _, fun _ _ => Nat.zero_le _⟩, fun hw => by cases hw⟩

theorem Steady.store_permit {state : LinkQueues} (hs : state.Steady) {op : LinkOp}
    (hwide : op = .writable → maxPayloadLen ≤ state.availableCreditBytes) :
    (state.store op).1.writable = true →
      maxPayloadLen ≤ (state.store op).1.availableCreditBytes := by
  cases op with
  | enqueue queued =>
    obtain ⟨hcredit, hwritable, -⟩ := state.store_enqueue_permit queued
    rw [hcredit, hwritable]
    exact hs.permit
  | credit bytes =>
    intro hw
    have hmax : maxPayloadLen ≤ u64Max := by decide
    exact le_min ((hs.permit hw).trans (Nat.le_add_right _ _)) hmax
  | writable => exact fun _ => hwide rfl

theorem Steady.apply {state state' : LinkQueues} {op : LinkOp} {log : List LinkAct}
    (hs : state.Steady) (hshort : ShortOp op)
    (hwide : op = .writable → maxPayloadLen ≤ state.availableCreditBytes)
    (h : state.apply op = some (state', log)) : state'.Steady := by
  have hrep := hs.represented.apply hshort h
  cases apply_applied h with
  | refused href => exact hs
  | tried sent href tries =>
    have hstored := hs.represented.store hshort href
    have hpermit := hs.store_permit hwide
    refine ⟨hrep, tries.paced (hs.paced.turn (state.store_turn op))
      (fun priority => (hstored priority).short) hpermit, ?_⟩
    cases tries.took with
    | nothing queues bytes credit writable why =>
      rw [writable, credit]
      exact hpermit
    | head priority queued rest permit strict front fits queues bytes credit writable =>
      intro hw
      rw [writable] at hw
      cases hw

end LinkQueues

namespace Forwarder

/-- A permit comes with the credit for the longest packet. -/
def Funded (f : Forwarder) : ForwardEvent → Prop
  | .linkWritable l => l ∈ f.downLinks ∨ maxPayloadLen ≤ (f.linkState l).availableCreditBytes
  | _ => True

instance (f : Forwarder) : (event : ForwardEvent) → Decidable (f.Funded event)
  | .linkWritable _ => inferInstanceAs (Decidable (_ ∨ _))
  | .outbound _ | .outboundMulticast _ _ | .inbound _ _ | .routesUpdated _ | .linkCredit _ _
  | .linkDown _ | .timer _ => .isTrue trivial

/-- The links are steady, and all packets fit a frame. -/
structure Steady (f : Forwarder) : Prop where
  links : ∀ l, (f.linkState l).Steady
  held : Holds Short f

theorem Steady.handle {now : MonoTime} {f f' : Forwarder} {event : ForwardEvent}
    {acts : List ForwardAction} (hf : f.Steady) (hshort : ShortEvent event)
    (hfunded : f.Funded event) (h : f.handle now event = some (f', acts)) : f'.Steady := by
  have hcalls : ∀ c ∈ f.calls now event, Short c.2.packet :=
    calls_hold inherited_short hf.held hshort.copied
  have hops := ops_short (fun _ hp => hp) hcalls
  refine ⟨fun l => ?_, (handle_holds inherited_short hf.held hshort.copied h).1⟩
  by_cases hpermit : event = .linkWritable l
  · -- one operation at most, with the credit it needs
    subst hpermit
    obtain ⟨log, hrun, -⟩ := handle_link h l
    rw [prepared_linkState (by simp), ops] at hrun
    split at hrun
    · rename_i hup
      obtain ⟨state1, out, rest, happly, hnil, -⟩ := emitAll_cons_inv hrun
      have hsame : state1 = f'.linkState l := (Prod.mk.inj (Option.some.inj hnil)).1
      rw [← hsame]
      have hop : LinkQueues.ShortOp .writable := trivial
      exact (hf.links l).apply hop (fun _ => Or.resolve_left hfunded hup.2) happly
    · have hsame : f.linkState l = f'.linkState l := (Prod.mk.inj (Option.some.inj hrun)).1
      rw [← hsame]
      exact hf.links l
  · refine handle_link_inv (R := fun op => LinkQueues.ShortOp op ∧ op ≠ .writable)
      LinkQueues.steady_default
      (fun state op state' log hs hop happly =>
        hs.apply hop.1 (fun heq => absurd heq hop.2) happly) (fun op hop => ⟨hops l op hop, ?_⟩)
      (hf.links l) h
    rcases mem_ops hop with ⟨c, -, rfl⟩ | ⟨bytes, -, rfl⟩ | ⟨heq, -⟩
    · simp
    · simp
    · exact absurd heq hpermit

/-- If every permit comes with the credit for the longest packet, no deficit exceeds one quantum and
the longest packet. -/
theorem deficit_bounded {me : NodeId} {routes : RouteTable}
    {events : List (MonoTime × ForwardEvent)} {f : Forwarder} {acts : List ForwardAction}
    (hshort : ∀ e ∈ events, ShortEvent e.2)
    (hfunded : Along (fun f e => f.handle e.1 e.2) (fun f e => f.Funded e.2) (new me routes) events)
    (h : (new me routes).run events = some (f, acts)) (l : LinkId) (i : Fin 3) :
    (f.linkState l).deficitBytes i ≤ drrQuantumBytes i + maxPayloadLen := by
  have hsteady : f.Steady := by
    have hboth : Along (fun f e => f.handle e.1 e.2)
        (fun f e => ShortEvent e.2 ∧ f.Funded e.2) (new me routes) events :=
      hfunded.and_forall hshort
    refine hboth.inv (fun s e s' out hs he hstep => hs.handle he.1 he.2 hstep) ?_ h
    have hrep := Represented.new me routes
    refine ⟨fun l => ?_, hrep.held⟩
    simpa [linkState, new] using LinkQueues.steady_default
  exact (hsteady.links l).paced.visited i

/-- A P1 packet of 90 bytes and `n` P3 packets of 89 bytes on link 7, with the credit for one P3
packet and a permit each time. -/
def starve (n : Nat) : List (MonoTime × ForwardEvent) :=
  (0, .outbound { samplePacket .unicast .p1 .empty (.ofByte 2) with payload := [42, 42] }) ::
    (List.replicate n [(1, ForwardEvent.outbound (samplePacket .unicast .p3 .empty (.ofByte 2))),
      (1, .linkCredit 7 89), (1, .linkWritable 7)]).flatten

/-- The P1 packet never fits the credit, and its class gains a quantum with every P3 packet sent. -/
theorem deficit_unbounded : ∃ f acts,
    (new (.ofByte 1) sampleRoutes).run (starve 75) = some (f, acts) ∧
    (∀ e ∈ starve 75, ShortEvent e.2) ∧
    drrQuantumBytes 0 + maxPayloadLen < (f.linkState 7).deficitBytes 0 := by
  have h : (((new (.ofByte 1) sampleRoutes).run (starve 75)).map fun r =>
      decide (drrQuantumBytes 0 + maxPayloadLen < (r.1.linkState 7).deficitBytes 0)) =
        some true := by
    decide +kernel
  obtain ⟨⟨f, acts⟩, hrun, hdeficit⟩ := Option.map_eq_some_iff.mp h
  exact ⟨f, acts, hrun, by decide +kernel, of_decide_eq_true hdeficit⟩

/-- With the credit for the longest packet first, the P1 packet is served before the P3 packet. -/
theorem deficit_bounded_funded : ∃ f acts,
    (new (.ofByte 1) sampleRoutes).run
      ((0, .linkCredit 7 maxPayloadLen) :: starve 1) = some (f, acts) ∧
    (sentTo 7 acts).length = 1 ∧
    (f.linkState 7).deficitBytes 0 ≤ drrQuantumBytes 0 + maxPayloadLen := by
  have h : (((new (.ofByte 1) sampleRoutes).run
      ((0, .linkCredit 7 maxPayloadLen) :: starve 1)).map fun r =>
      decide ((sentTo 7 r.2).length = 1)) = some true := by
    decide +kernel
  obtain ⟨⟨f, acts⟩, hrun, hlen⟩ := Option.map_eq_some_iff.mp h
  exact ⟨f, acts, hrun, of_decide_eq_true hlen,
    deficit_bounded (by decide +kernel) (by decide +kernel) hrun 7 0⟩

end Forwarder
end Forward
end MeshBus
