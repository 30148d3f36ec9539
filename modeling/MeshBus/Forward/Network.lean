import MeshBus.Forward.Conservation

/-!
# Forward.Network

A network of forwarders joined by links that delay, reorder or lose packets but never duplicate
one. Route tables are arbitrary and change at any time. A step is an event at a node, the arrival
of a packet in flight, or its loss.

The last four fields of `Network` are history: what was submitted, what arrived at, was sent by and
was delivered at each node.
-/

namespace MeshBus
namespace Forward

open Wire
open Control (RouteTable)

structure Network (ι : Type) where
  node : ι → Forwarder
  /-- Packets on the way, with the node and the link they arrive at. -/
  flight : List (ι × LinkId × ForwardPacket)
  submitted : List ForwardPacket
  arrived : List (ι × ForwardPacket)
  sent : List (ι × ForwardPacket)
  delivered : List (ι × ForwardPacket)

inductive NetworkStep (ι : Type) where
  | event (i : ι) (now : MonoTime) (event : ForwardEvent)
  | receive (n : Nat) (now : MonoTime)
  | lose (n : Nat)

/-- Packets arrive from a link only as a packet in flight. -/
def ForwardEvent.isLocal : ForwardEvent → Bool
  | .inbound .. => false
  | _ => true

namespace Network

variable {ι : Type} [DecidableEq ι]

def init (me : ι → NodeId) (routes : ι → RouteTable) : Network ι where
  node i := .new (me i) (routes i)
  flight := []
  submitted := []
  arrived := []
  sent := []
  delivered := []

/-- The packets that `Send` actions of node `i` put in flight; a link may lead nowhere. -/
def launched (wire : ι × LinkId → Option (ι × LinkId)) (i : ι) (acts : List ForwardAction) :
    List (ι × LinkId × ForwardPacket) :=
  acts.filterMap fun
    | .send link packet => (wire (i, link)).map fun far => (far.1, far.2, packet)
    | _ => none

/-- Node `i` has handled `event` with result `r`. -/
def handled (wire : ι × LinkId → Option (ι × LinkId)) (net : Network ι) (i : ι)
    (event : ForwardEvent) (r : Forwarder × List ForwardAction) : Network ι where
  node := Function.update net.node i r.1
  flight := net.flight ++ launched wire i r.2
  submitted := net.submitted
  arrived := net.arrived ++ (Forwarder.arrival event).toList.map fun a => (i, a.2)
  sent := net.sent ++ (Forward.sent r.2).map fun p => (i, p)
  delivered := net.delivered ++ (Forward.delivered r.2).map fun p => (i, p)

def submit (net : Network ι) (event : ForwardEvent) : Network ι :=
  { net with
    submitted := net.submitted ++ (Forwarder.processed event).toList.map fun a => a.2 }

def step (wire : ι × LinkId → Option (ι × LinkId)) (net : Network ι) :
    NetworkStep ι → Option (Network ι)
  | .event i now event =>
    if event.isLocal then
      ((net.node i).handle now event).map fun r => (net.submit event).handled wire i event r
    else none
  | .receive n now =>
    match net.flight[n]? with
    | none => none
    | some (j, link, packet) =>
      ((net.node j).handle now (.inbound link packet)).map fun r =>
        { net with flight := net.flight.eraseIdx n }.handled wire j (.inbound link packet) r
  | .lose n =>
    if n < net.flight.length then some { net with flight := net.flight.eraseIdx n } else none

def run (wire : ι × LinkId → Option (ι × LinkId)) (net : Network ι)
    (steps : List (NetworkStep ι)) : Option (Network ι) :=
  steps.foldlM (step wire) net

/-! ## Accounts -/

/-- The recipients an accepted packet is submitted for. -/
def named (packet : ForwardPacket) : Multiset (Token × ℕ) :=
  if (Forwarder.accepted packet).isSome then arrivingOf packet else 0

/-- The sum of the ttls with which `token` occurs. -/
def budget (token : Token) (m : Multiset (Token × ℕ)) : ℕ :=
  ((m.filter fun life => life.1 = token).map Prod.snd).sum

@[simp] theorem budget_zero (token : Token) : budget token 0 = 0 := rfl

@[simp] theorem budget_add (token : Token) (m n : Multiset (Token × ℕ)) :
    budget token (m + n) = budget token m + budget token n := by
  simp [budget]

theorem budget_singleton (token : Token) (life : Token × ℕ) :
    budget token {life} = if life.1 = token then life.2 else 0 := by
  rw [budget, Multiset.filter_singleton]
  split <;> simp

theorem budget_mono (token : Token) {m n : Multiset (Token × ℕ)} (h : m ≤ n) :
    budget token m ≤ budget token n := by
  obtain ⟨rest, rfl⟩ := Multiset.le_iff_exists_add.mp h
  rw [budget_add]
  exact Nat.le_add_right _ _

theorem budget_lives (token : Token) (k : ForwardPacket) (ds : Multiset NodeId) (ttl : ℕ) :
    budget token (lives k ds ttl) = (tokens k ds).count token * ttl := by
  induction ds using Multiset.induction with
  | empty => simp [tokens]
  | cons d ds ih =>
    have hlives : lives k (d ::ₘ ds) ttl = {((k, d), ttl)} + lives k ds ttl := by
      simp [lives]
    have htokens : tokens k (d ::ₘ ds) = (k, d) ::ₘ tokens k ds := by
      simp [tokens]
    rw [hlives, budget_add, ih, htokens, Multiset.count_cons]
    by_cases htoken : token = (k, d)
    · subst htoken
      rw [budget_singleton, if_pos rfl, if_pos rfl, Nat.add_mul]
      omega
    · rw [budget_singleton, if_neg (Ne.symm htoken), if_neg htoken, Nat.add_zero, Nat.zero_add]

/-- A waiting packet can be sent once more than the packet it will be in flight. -/
theorem budget_heldOf (token : Token) (p : ForwardPacket) :
    budget token (heldOf p) = budget token (arrivingOf p) + (tokensOf p).count token := by
  rw [heldOf, arrivingOf, budget_lives, budget_lives, Nat.mul_add, Nat.mul_one]
  rfl

theorem budget_sentLives (token : Token) (acts : List ForwardAction) :
    budget token (sentLives acts) = budget token ((Forward.sent acts).map arrivingOf).sum +
      ((Forward.sent acts).map fun p => (tokensOf p).count token).sum := by
  unfold sentLives
  induction Forward.sent acts with
  | nil => rfl
  | cons p ps ih =>
    simp only [List.map_cons, List.sum_cons, budget_add, ih, budget_heldOf]
    omega

/-- The pairs a node has not yet accounted for with an action. -/
def account (f : Forwarder) : Multiset Token :=
  (heldLives f).map Prod.fst + conflatedTokens f.conflated

/-- A node that is given the lives `x` keeps or passes on no more than it had. -/
structure Spends (f : Forwarder) (x : Multiset (Token × ℕ)) (f' : Forwarder)
    (acts : List ForwardAction) : Prop where
  lives : heldLives f' + sentLives acts ≤ heldLives f + x
  tokens : account f' + (sentLives acts).map Prod.fst + deliveredTokens acts ≤
    account f + x.map Prod.fst

theorem Spends.of_balanced {f f' : Forwarder} {x : Multiset (Token × ℕ)}
    {acts : List ForwardAction} (h : Balanced f x f' acts) : Spends f x f' acts := by
  obtain ⟨gone, hl, ht⟩ := h
  refine ⟨?_, ?_⟩
  · rw [← hl]
    exact Multiset.le_add_right _ _
  · have hmap := congrArg (Multiset.map Prod.fst) hl
    rw [Multiset.map_add, Multiset.map_add, Multiset.map_add] at hmap
    have htotal : account f' + (sentLives acts).map Prod.fst + deliveredTokens acts +
        refusedTokens acts = account f + x.map Prod.fst := by
      refine add_right_cancel (b := gone.map Prod.fst) ?_
      calc account f' + (sentLives acts).map Prod.fst + deliveredTokens acts +
            refusedTokens acts + gone.map Prod.fst
          = ((heldLives f').map Prod.fst + (sentLives acts).map Prod.fst + gone.map Prod.fst) +
            (conflatedTokens f'.conflated + deliveredTokens acts + refusedTokens acts) := by
            rw [account]; abel
        _ = account f + x.map Prod.fst + gone.map Prod.fst := by
            rw [hmap, ht, account]; abel
    rw [← htotal]
    exact Multiset.le_add_right _ _

theorem Spends.refused (f : Forwarder) (reason : DropReason) (packet : ForwardPacket) :
    Spends f 0 f [.drop reason packet] :=
  ⟨by simp [sentLives], by simp [sentLives, deliveredTokens]⟩

/-- The lives a local event brings: those of an accepted packet. -/
def submission (event : ForwardEvent) : Multiset (Token × ℕ) :=
  ((Forwarder.processed event).toList.map fun a => named a.2).sum

theorem spends_submission {f f' : Forwarder} {now : MonoTime} {event : ForwardEvent}
    {acts : List ForwardAction} (h : f.handle now event = some (f', acts)) :
    Spends f (submission event) f' acts := by
  cases hp : Forwarder.processed event with
  | none =>
    have hzero : submission event = 0 := by simp [submission, hp]
    rw [hzero]
    cases harr : Forwarder.arrival event with
    | none =>
      have hb := (Forwarder.handle_handled h).balanced
      rw [Forwarder.input, harr] at hb
      exact .of_balanced hb
    | some a =>
      obtain ⟨rfl, reason, rfl⟩ := Forwarder.handle_rejected harr hp h
      exact .refused f' reason a.2
  | some a =>
    have hproc := Forwarder.handle_processed hp h
    have hsub : submission event = named a.2 := by simp [submission, hp]
    rw [hsub, named]
    split
    · exact .of_balanced (Forwarder.processPacket_balanced hproc)
    · rename_i hnone
      obtain ⟨reason, -, heq⟩ := Forwarder.processPacket_refused f a.1
        (.inr (Option.not_isSome_iff_eq_none.mp hnone))
      rw [heq] at hproc
      cases hproc
      exact .refused f reason a.2

/-! ## The invariant -/

def flightLives (net : Network ι) : Multiset (Token × ℕ) :=
  (net.flight.map fun e => arrivingOf e.2.2).sum

def submittedLives (net : Network ι) : Multiset (Token × ℕ) := (net.submitted.map named).sum

def deliveredTokens (net : Network ι) : Multiset Token :=
  (net.delivered.map fun e => ({(ident e.2, e.2.header.destination)} : Multiset Token)).sum

def sends (net : Network ι) (token : Token) : ℕ :=
  (net.sent.map fun e => (tokensOf e.2).count token).sum

/-- The lives that node `i` sent on, and those that arrived there. -/
def sentBy (net : Network ι) (i : ι) : Multiset (Token × ℕ) :=
  ((net.sent.filter fun e => e.1 = i).map fun e => heldOf e.2).sum

def arrivedAt (net : Network ι) (i : ι) : Multiset (Token × ℕ) :=
  ((net.arrived.filter fun e => e.1 = i).map fun e => arrivingOf e.2).sum

/-- What was delivered, what the nodes hold, what is in flight and the lives `x` about to be
handled make no more than what was submitted. -/
structure Accounted [Fintype ι] (me : ι → NodeId) (net : Network ι) (x : Multiset (Token × ℕ)) :
    Prop where
  me_eq : ∀ i, (net.node i).me = me i
  own : ∀ e ∈ net.delivered, e.2.header.destination = me e.1
  once : net.deliveredTokens + ∑ i, account (net.node i) + net.flightLives.map Prod.fst +
    x.map Prod.fst ≤ net.submittedLives.map Prod.fst
  sends : ∀ token, net.sends token + budget token (∑ i, heldLives (net.node i)) +
    budget token net.flightLives + budget token x ≤ budget token net.submittedLives
  hops : ∀ i, net.sentBy i + heldLives (net.node i) ≤ net.arrivedAt i

theorem accounted_init [Fintype ι] (me : ι → NodeId) (routes : ι → RouteTable) :
    Accounted me (init me routes) 0 := by
  have hheld : ∀ i, heldLives ((init me routes).node i) = 0 := fun i => by
    simp [init, heldLives, Forwarder.new]
  have haccount : ∀ i, account ((init me routes).node i) = 0 := fun i => by
    rw [account, hheld]
    rfl
  refine ⟨fun i => rfl, by simp [init], ?_, fun token => ?_, fun i => ?_⟩
  · simp only [haccount, Finset.sum_const_zero]
    simp [deliveredTokens, flightLives, submittedLives, init]
  · simp only [hheld, Finset.sum_const_zero]
    simp [Network.sends, flightLives, submittedLives, init]
  · rw [hheld]
    simp [sentBy, arrivedAt, init]

/-- One node changes. -/
theorem sum_update [Fintype ι] {A : Type} [AddCommMonoid A] (g : Forwarder → A)
    (node : ι → Forwarder) (i : ι) (f : Forwarder) :
    ∑ j, g (Function.update node i f j) + g (node i) = ∑ j, g (node j) + g f := by
  have hother : ∑ j ∈ Finset.univ.erase i, g (Function.update node i f j) =
      ∑ j ∈ Finset.univ.erase i, g (node j) := by
    refine Finset.sum_congr rfl fun j hj => ?_
    rw [Function.update_of_ne (Finset.ne_of_mem_erase hj)]
  rw [← Finset.add_sum_erase _ _ (Finset.mem_univ i), hother, Function.update_self,
    ← Finset.add_sum_erase _ (fun j => g (node j)) (Finset.mem_univ i)]
  abel

omit [DecidableEq ι] in
theorem launched_sublist (wire : ι × LinkId → Option (ι × LinkId)) (i : ι)
    (acts : List ForwardAction) :
    ((launched wire i acts).map fun e => e.2.2).Sublist (Forward.sent acts) := by
  induction acts with
  | nil => exact .slnil
  | cons act acts ih =>
    cases act with
    | send link p =>
      rw [sent_cons_send]
      cases hw : wire (i, link) with
      | none =>
        have heq : launched wire i (.send link p :: acts) = launched wire i acts := by
          simp [launched, hw]
        rw [heq]
        exact ih.cons p
      | some far =>
        have heq : launched wire i (.send link p :: acts) =
            (far.1, far.2, p) :: launched wire i acts := by
          simp [launched, hw]
        rw [heq]
        exact ih.cons_cons p
    | deliverLocal _ | drop _ _ | backpressure _ _ | setTimer _ _ => exact ih

theorem sum_le_of_sublist {α β : Type} (g : α → Multiset β) {l l' : List α} (h : l.Sublist l') :
    (l.map g).sum ≤ (l'.map g).sum := by
  induction h with
  | slnil => exact le_rfl
  | cons a _ ih =>
    rw [List.map_cons, List.sum_cons]
    exact ih.trans (Multiset.le_add_left _ _)
  | cons_cons a _ ih =>
    rw [List.map_cons, List.sum_cons, List.map_cons, List.sum_cons]
    exact add_le_add_right ih _

omit [DecidableEq ι] in
theorem launched_lives (wire : ι × LinkId → Option (ι × LinkId)) (i : ι)
    (acts : List ForwardAction) :
    ((launched wire i acts).map fun e => arrivingOf e.2.2).sum ≤
      ((Forward.sent acts).map arrivingOf).sum := by
  have h := sum_le_of_sublist arrivingOf (launched_sublist wire i acts)
  rwa [List.map_map] at h

theorem map_fst_sent (acts : List ForwardAction) :
    ((Forward.sent acts).map arrivingOf).sum.map Prod.fst = (sentLives acts).map Prod.fst := by
  unfold sentLives
  induction Forward.sent acts with
  | nil => rfl
  | cons p ps ih =>
    simp only [List.map_cons, List.sum_cons, Multiset.map_add, ih, map_fst_arrivingOf,
      map_fst_heldOf]

section Handled

variable {wire : ι × LinkId → Option (ι × LinkId)} {net : Network ι} {i : ι} {event : ForwardEvent}
  {f : Forwarder} {acts : List ForwardAction}

theorem handled_deliveredTokens : (net.handled wire i event (f, acts)).deliveredTokens =
    net.deliveredTokens + Forward.deliveredTokens acts := by
  simp only [deliveredTokens, handled, List.map_append, List.sum_append, List.map_map]
  rfl

theorem handled_flightLives : (net.handled wire i event (f, acts)).flightLives =
    net.flightLives + ((launched wire i acts).map fun e => arrivingOf e.2.2).sum := by
  simp only [flightLives, handled, List.map_append, List.sum_append]

theorem handled_sends (token : Token) : (net.handled wire i event (f, acts)).sends token =
    net.sends token + ((Forward.sent acts).map fun p => (tokensOf p).count token).sum := by
  simp only [sends, handled, List.map_append, List.sum_append, List.map_map]
  rfl

theorem handled_sentBy (j : ι) : (net.handled wire i event (f, acts)).sentBy j =
    net.sentBy j + if i = j then sentLives acts else 0 := by
  simp only [sentBy, handled, List.filter_append, List.map_append, List.sum_append]
  congr 1
  split
  · rename_i heq
    simp only [heq, List.filter_map, sentLives]
    simp [Function.comp_def]
  · rename_i hne
    simp [hne, List.filter_map, Function.comp_def]

theorem handled_arrivedAt (j : ι) : (net.handled wire i event (f, acts)).arrivedAt j =
    net.arrivedAt j + if i = j then Forwarder.input event else 0 := by
  simp only [arrivedAt, handled, List.filter_append, List.map_append, List.sum_append]
  congr 1
  rw [Forwarder.input]
  cases Forwarder.arrival event with
  | none => simp
  | some a =>
    by_cases hij : i = j
    · simp [hij]
    · simp [hij]

end Handled

theorem Accounted.mono [Fintype ι] {me : ι → NodeId} {net : Network ι}
    {x : Multiset (Token × ℕ)} (h : Accounted me net x) : Accounted me net 0 := by
  refine ⟨h.me_eq, h.own, ?_, fun token => ?_, h.hops⟩
  · rw [Multiset.map_zero, add_zero]
    exact (Multiset.le_add_right _ _).trans h.once
  · have := h.sends token
    rw [budget_zero]
    omega

/-- Node `i` handles the lives `x`. -/
theorem Accounted.handled [Fintype ι] {me : ι → NodeId} {net : Network ι}
    {x : Multiset (Token × ℕ)} {i : ι} {now : MonoTime} {event : ForwardEvent} {f : Forwarder}
    {acts : List ForwardAction} (wire : ι × LinkId → Option (ι × LinkId))
    (h : Accounted me net x) (hstep : (net.node i).handle now event = some (f, acts))
    (hspend : Spends (net.node i) x f acts) :
    Accounted me (net.handled wire i event (f, acts)) 0 := by
  have hh := Forwarder.handle_handled hstep
  have hlaunched := launched_lives wire i acts
  refine ⟨fun j => ?_, fun e he => ?_, ?_, fun token => ?_, fun j => ?_⟩
  · by_cases hj : j = i
    · subst hj
      simp only [Network.handled, Function.update_self]
      rw [hh.me, h.me_eq]
    · simp only [Network.handled, Function.update_of_ne hj]
      exact h.me_eq j
  · rcases List.mem_append.mp he with he | he
    · exact h.own e he
    · obtain ⟨p, hp, rfl⟩ := List.mem_map.mp he
      rw [hh.own p hp, h.me_eq]
  · rw [handled_deliveredTokens, handled_flightLives, Multiset.le_iff_count]
    intro token
    have honce := Multiset.le_iff_count.mp h.once token
    have htokens := Multiset.le_iff_count.mp hspend.tokens token
    have hnodes := congrArg (Multiset.count token) (sum_update account net.node i f)
    have hfly := Multiset.le_iff_count.mp (Multiset.map_le_map hlaunched (f := Prod.fst)) token
    rw [map_fst_sent] at hfly
    simp only [Multiset.count_add, Multiset.map_add, Multiset.map_zero, Multiset.count_zero]
      at honce htokens hnodes hfly ⊢
    simp only [Network.handled, submittedLives] at honce hnodes ⊢
    omega
  · rw [handled_sends, handled_flightLives, budget_add, budget_zero]
    have hsends := h.sends token
    have hlives := budget_mono token hspend.lives
    have hnodes := congrArg (budget token) (sum_update heldLives net.node i f)
    have hfly := budget_mono token hlaunched
    rw [budget_add, budget_add, budget_sentLives] at hlives
    rw [budget_add, budget_add] at hnodes
    simp only [Network.handled, submittedLives] at hsends hnodes ⊢
    omega
  · rw [handled_sentBy, handled_arrivedAt]
    have hbal := (Spends.of_balanced hh.balanced).lives
    by_cases hij : i = j
    · subst hij
      rw [if_pos rfl, if_pos rfl]
      have hnode : (net.handled wire i event (f, acts)).node i = f := Function.update_self _ _ _
      rw [hnode, Multiset.le_iff_count]
      intro life
      have h1 := Multiset.le_iff_count.mp hbal life
      have h2 := Multiset.le_iff_count.mp (h.hops i) life
      simp only [Multiset.count_add] at h1 h2 ⊢
      omega
    · rw [if_neg hij, if_neg hij, add_zero, add_zero]
      have hnode : (net.handled wire i event (f, acts)).node j = net.node j :=
        Function.update_of_ne (Ne.symm hij) _ _
      rw [hnode]
      exact h.hops j

theorem Accounted.submit [Fintype ι] {me : ι → NodeId} {net : Network ι}
    (h : Accounted me net 0) (event : ForwardEvent) :
    Accounted me (net.submit event) (submission event) := by
  have hsub : (net.submit event).submittedLives = net.submittedLives + submission event := by
    simp only [submittedLives, Network.submit, List.map_append, List.sum_append, List.map_map,
      submission]
    rfl
  refine ⟨h.me_eq, h.own, ?_, fun token => ?_, h.hops⟩
  · rw [hsub, Multiset.map_add]
    have honce := h.once
    rw [Multiset.map_zero, add_zero] at honce
    exact add_le_add_left honce _
  · rw [hsub, budget_add]
    have := h.sends token
    rw [budget_zero, Nat.add_zero] at this
    exact Nat.add_le_add_right this _

/-- A packet taken out of the air is about to be handled, or lost. -/
theorem Accounted.land [Fintype ι] {me : ι → NodeId} {net : Network ι} {n : Nat}
    {e : ι × LinkId × ForwardPacket} (h : Accounted me net 0) (hn : net.flight[n]? = some e) :
    Accounted me { net with flight := net.flight.eraseIdx n } (arrivingOf e.2.2) := by
  have hflight : net.flightLives = arrivingOf e.2.2 +
      flightLives { net with flight := net.flight.eraseIdx n } := by
    obtain ⟨hlt, hget⟩ := List.getElem?_eq_some_iff.mp hn
    have hperm := List.getElem_cons_eraseIdx_perm hlt
    rw [hget] at hperm
    have hsum := (hperm.map fun e => arrivingOf e.2.2).sum_eq
    rw [List.map_cons, List.sum_cons] at hsum
    exact hsum.symm
  refine ⟨h.me_eq, h.own, ?_, fun token => ?_, h.hops⟩
  · have honce := h.once
    rw [hflight, Multiset.map_add, Multiset.map_zero, add_zero] at honce
    refine le_trans (le_of_eq ?_) honce
    simp only [deliveredTokens]
    abel
  · have hsends := h.sends token
    rw [hflight, budget_add, budget_zero] at hsends
    simp only [Network.sends, submittedLives] at hsends ⊢
    omega

theorem Accounted.step [Fintype ι] {me : ι → NodeId} {net net' : Network ι}
    {wire : ι × LinkId → Option (ι × LinkId)} {s : NetworkStep ι} (h : Accounted me net 0)
    (hstep : net.step wire s = some net') : Accounted me net' 0 := by
  cases s with
  | event i now event =>
    simp only [Network.step] at hstep
    split at hstep
    · obtain ⟨⟨f, acts⟩, hhandle, rfl⟩ := Option.map_eq_some_iff.mp hstep
      exact (h.submit event).handled wire hhandle (spends_submission hhandle)
    · cases hstep
  | receive n now =>
    simp only [Network.step] at hstep
    split at hstep
    · cases hstep
    · rename_i j link packet hn
      obtain ⟨⟨f, acts⟩, hhandle, rfl⟩ := Option.map_eq_some_iff.mp hstep
      exact (h.land hn).handled wire hhandle
        (.of_balanced (Forwarder.handle_handled hhandle).balanced)
  | lose n =>
    simp only [Network.step] at hstep
    split at hstep
    · rename_i hlt
      cases hstep
      exact (h.land (List.getElem?_eq_getElem hlt)).mono
    · cases hstep

theorem Accounted.run [Fintype ι] {me : ι → NodeId} {wire : ι × LinkId → Option (ι × LinkId)}
    {steps : List (NetworkStep ι)} {net net' : Network ι} (h : Accounted me net 0)
    (hrun : net.run wire steps = some net') : Accounted me net' 0 :=
  foldlM_inv (P := fun net => Accounted me net 0) (fun _ _ _ h hstep => h.step hstep) h hrun

/-! ## Delivery -/

/-- A packet with identity `k` one of whose recipients is `d`. -/
def Carries (k : ForwardPacket) (d : NodeId) (packet : ForwardPacket) : Prop :=
  ident packet = k ∧ d ∈ recipients packet

instance (k : ForwardPacket) (d : NodeId) (packet : ForwardPacket) :
    Decidable (Carries k d packet) := inferInstanceAs (Decidable (_ ∧ _))

theorem count_tokensOf_pos {k : ForwardPacket} {d : NodeId} {packet : ForwardPacket} :
    0 < (tokensOf packet).count (k, d) ↔ Carries k d packet := by
  rw [Multiset.count_pos, tokensOf, tokens, Multiset.mem_map, Carries]
  constructor
  · rintro ⟨d', hd', heq⟩
    cases heq
    exact ⟨rfl, hd'⟩
  · rintro ⟨rfl, hd⟩
    exact ⟨d, hd, rfl⟩

/-- An accepted packet names a recipient at most once. -/
theorem count_named_le (k : ForwardPacket) (d : NodeId) (packet : ForwardPacket) :
    ((named packet).map Prod.fst).count (k, d) ≤ if Carries k d packet then 1 else 0 := by
  rw [named]
  split
  · rename_i hsome
    obtain ⟨ds, hds⟩ := Option.isSome_iff_exists.mp hsome
    have hnodup : (tokensOf packet).Nodup := by
      rw [tokensOf, ← Forwarder.accepted_coe hds, tokens]
      refine Multiset.Nodup.map (fun a b h => ?_) (Forwarder.accepted_nodup hds)
      exact congrArg Prod.snd h
    rw [map_fst_arrivingOf]
    have hle := Multiset.nodup_iff_count_le_one.mp hnodup (k, d)
    split
    · exact hle
    · rename_i hcarries
      have := count_tokensOf_pos.not.mpr hcarries
      omega
  · simp

theorem budget_named_le (k : ForwardPacket) (d : NodeId) (packet : ForwardPacket) :
    budget (k, d) (named packet) ≤ if Carries k d packet then packet.header.ttl.toNat else 0 := by
  have hcount := count_named_le k d packet
  have hbudget : budget (k, d) (named packet) =
      ((named packet).map Prod.fst).count (k, d) * packet.header.ttl.toNat := by
    rw [named]
    split
    · rw [arrivingOf, budget_lives, map_fst_lives]
    · simp
  rw [hbudget]
  split at hcount
  · rw [if_pos (by assumption)]
    exact (Nat.mul_le_mul_right _ hcount).trans (Nat.one_mul _).le
  · rw [if_neg (by assumption), Nat.le_zero.mp hcount, Nat.zero_mul]

theorem count_submitted_le (k : ForwardPacket) (d : NodeId) (packets : List ForwardPacket) :
    ((packets.map named).sum.map Prod.fst).count (k, d) ≤
      (packets.filter fun p => Carries k d p).length := by
  induction packets with
  | nil => simp
  | cons p packets ih =>
    rw [List.map_cons, List.sum_cons, Multiset.map_add, Multiset.count_add]
    have hp := count_named_le k d p
    by_cases hc : Carries k d p
    · rw [if_pos hc] at hp
      rw [List.filter_cons_of_pos (by simpa using hc), List.length_cons]
      omega
    · rw [if_neg hc] at hp
      rw [List.filter_cons_of_neg (by simpa using hc)]
      omega

theorem budget_submitted_le (k : ForwardPacket) (d : NodeId) (packets : List ForwardPacket) :
    budget (k, d) (packets.map named).sum ≤
      ((packets.filter fun p => Carries k d p).map fun p => p.header.ttl.toNat).sum := by
  induction packets with
  | nil => simp
  | cons p packets ih =>
    rw [List.map_cons, List.sum_cons, budget_add]
    have hp := budget_named_le k d p
    by_cases hc : Carries k d p
    · rw [if_pos hc] at hp
      rw [List.filter_cons_of_pos (by simpa using hc), List.map_cons, List.sum_cons]
      omega
    · rw [if_neg hc] at hp
      rw [List.filter_cons_of_neg (by simpa using hc)]
      omega

theorem length_filter_le_sum {α : Type} (p : α → Prop) [DecidablePred p] (g : α → ℕ)
    (l : List α) (hg : ∀ a ∈ l, p a → 0 < g a) :
    (l.filter fun a => p a).length ≤ (l.map g).sum := by
  induction l with
  | nil => simp
  | cons a l ih =>
    have ih := ih fun b hb => hg b (List.mem_cons_of_mem _ hb)
    rw [List.map_cons, List.sum_cons]
    by_cases ha : p a
    · have := hg a List.mem_cons_self ha
      rw [List.filter_cons_of_pos (by simpa using ha), List.length_cons]
      omega
    · rw [List.filter_cons_of_neg (by simpa using ha)]
      omega

omit [DecidableEq ι] in
theorem count_deliveredTokens (net : Network ι) (token : Token) :
    net.deliveredTokens.count token =
      (net.delivered.map fun e => if (ident e.2, e.2.header.destination) = token then 1 else 0).sum
      := by
  unfold deliveredTokens
  induction net.delivered with
  | nil => rfl
  | cons e es ih =>
    rw [List.map_cons, List.sum_cons, List.map_cons, List.sum_cons, Multiset.count_add, ih,
      Multiset.count_singleton]
    simp only [eq_comm]

/-- Whatever the routes and the order of events: a packet is delivered at a node at most as often
as it was submitted for that node, with the source, flow and payload it was submitted with; the
copies that carry one recipient are sent over links at most ttl times for each submission; and
what a node sends on arrived there with a ttl one higher. -/
theorem at_most_once [Fintype ι] (wire : ι × LinkId → Option (ι × LinkId)) (me : ι → NodeId)
    (routes : ι → RouteTable) (steps : List (NetworkStep ι)) {net : Network ι}
    (h : (init me routes).run wire steps = some net) :
    (∀ i k, (net.delivered.filter fun e => e.1 = i ∧ ident e.2 = k).length ≤
      (net.submitted.filter fun p => Carries k (me i) p).length) ∧
    (∀ e ∈ net.delivered, ∃ p ∈ net.submitted, me e.1 ∈ recipients p ∧
      e.2.header.source = p.header.source ∧ e.2.header.flowId = p.header.flowId ∧
      e.2.payload = p.payload) ∧
    (∀ k d, (net.sent.filter fun e => Carries k d e.2).length ≤
      ((net.submitted.filter fun p => Carries k d p).map fun p => p.header.ttl.toNat).sum) ∧
    (∀ i, net.sentBy i ≤ net.arrivedAt i) := by
  have hacc := (accounted_init me routes).run h
  have honce : ∀ i k, (net.delivered.filter fun e => e.1 = i ∧ ident e.2 = k).length ≤
      (net.submitted.filter fun p => Carries k (me i) p).length := by
    intro i k
    have hsub := (Multiset.le_iff_count.mp hacc.once (k, me i)).trans
      (count_submitted_le k (me i) net.submitted)
    simp only [Multiset.count_add, count_deliveredTokens] at hsub
    have hdel : (net.delivered.filter fun e => e.1 = i ∧ ident e.2 = k).length ≤
        (net.delivered.map fun e =>
          if (ident e.2, e.2.header.destination) = (k, me i) then 1 else 0).sum := by
      refine length_filter_le_sum (fun e : ι × ForwardPacket => e.1 = i ∧ ident e.2 = k) _ _ ?_
      rintro e he ⟨rfl, rfl⟩
      rw [hacc.own e he, if_pos rfl]
      exact Nat.one_pos
    omega
  refine ⟨honce, fun e he => ?_, fun k d => ?_, fun i => ?_⟩
  · have hpos : 0 < (net.submitted.filter fun p => Carries (ident e.2) (me e.1) p).length := by
      have hmem : e ∈ net.delivered.filter fun e' => e'.1 = e.1 ∧ ident e'.2 = ident e.2 :=
        List.mem_filter.mpr ⟨he, by simp⟩
      exact (List.length_pos_of_mem hmem).trans_le (honce e.1 (ident e.2))
    obtain ⟨p, hp⟩ := List.exists_mem_of_length_pos hpos
    obtain ⟨hmem, hcarries⟩ := List.mem_filter.mp hp
    obtain ⟨hident, hrec⟩ := of_decide_eq_true hcarries
    refine ⟨p, hmem, hrec, ?_, ?_, ?_⟩
    · exact congrArg (fun q => q.header.source) hident.symm
    · exact congrArg (fun q => q.header.flowId) hident.symm
    · exact congrArg (fun q => q.payload) hident.symm
  · have hsends := (hacc.sends (k, d)).trans (budget_submitted_le k d net.submitted)
    have hlen := length_filter_le_sum (fun e : ι × ForwardPacket => Carries k d e.2)
      (fun e => (tokensOf e.2).count (k, d)) net.sent fun e _ => count_tokensOf_pos.mpr
    simp only [sends] at hsends
    omega
  · exact (Multiset.le_add_right _ _).trans (hacc.hops i)

/-- Nodes 1 and 2, joined by link 7 at node 1 and link 3 at node 2. -/
def pairWire : Bool × LinkId → Option (Bool × LinkId)
  | (false, 7) => some (true, 3)
  | _ => none

def pairMe (i : Bool) : NodeId := if i then .ofByte 2 else .ofByte 1

/-- A packet to nodes 1 and 2 is submitted at node 1, and its copy reaches node 2. -/
def pairSteps : List (NetworkStep Bool) :=
  [.event false 0 (.linkWritable 7), .event false 1 (.linkCredit 7 1000),
    .event false 2 (.outboundMulticast [.ofByte 1, .ofByte 2]
      (Forwarder.samplePacket .multicast .p2 .empty default)), .receive 0 3]

theorem at_most_once_pair : ∃ net,
    (init pairMe fun _ => Forwarder.sampleRoutes).run pairWire pairSteps = some net ∧
    net.delivered.length = 2 ∧
    (∀ i k, (net.delivered.filter fun e => e.1 = i ∧ ident e.2 = k).length ≤
      (net.submitted.filter fun p => Carries k (pairMe i) p).length) ∧
    (∀ e ∈ net.delivered, ∃ p ∈ net.submitted, pairMe e.1 ∈ recipients p ∧
      e.2.header.source = p.header.source ∧ e.2.header.flowId = p.header.flowId ∧
      e.2.payload = p.payload) ∧
    (∀ k d, (net.sent.filter fun e => Carries k d e.2).length ≤
      ((net.submitted.filter fun p => Carries k d p).map fun p => p.header.ttl.toNat).sum) ∧
    (∀ i, net.sentBy i ≤ net.arrivedAt i) := by
  have h : ((init pairMe fun _ => Forwarder.sampleRoutes).run pairWire pairSteps).map
      (fun net => net.delivered.length) = some 2 := by decide +kernel
  obtain ⟨net, hrun, hlen⟩ := Option.map_eq_some_iff.mp h
  exact ⟨net, hrun, hlen, at_most_once pairWire pairMe _ pairSteps hrun⟩

end Network
end Forward
end MeshBus
