import MeshBus.Forward.Forwarder
import MeshBus.Forward.QueueSteps

/-!
# Forward.Tokens

Accounting for packets by recipient. A token is a packet identity (all of a packet but its ttl and
its addresses) with one final recipient; a life is a token with the ttl it arrived with. A packet
that waits in a queue or is sent has already lost one from its ttl, so it counts for `ttl + 1`.

`Balanced f input f' acts`: between `f` and `f'`, every life that was held or came in is held, is
sent with the ttl it arrived with less one, or is gone; and what is gone was delivered, refused (a
`Drop` or a `Backpressure`) or conflated away. Steps compose by `Balanced.seq`.
-/

namespace MeshBus
namespace Forward

open Wire

/-- What stays the same from hop to hop. -/
def ident (packet : ForwardPacket) : ForwardPacket where
  header := { packet.header with ttl := 0, destination := default }
  multicastDestinations := []
  payload := packet.payload

/-- The final recipients. -/
def recipients (packet : ForwardPacket) : List NodeId :=
  if packet.header.packetType = .multicast then packet.multicastDestinations
  else [packet.header.destination]

abbrev Token := ForwardPacket × NodeId

/-- The tokens of identity `k` for the recipients in `ds`. -/
def tokens (k : ForwardPacket) (ds : Multiset NodeId) : Multiset Token := ds.map fun d => (k, d)

/-- The same with the ttl at arrival. -/
def lives (k : ForwardPacket) (ds : Multiset NodeId) (ttl : ℕ) : Multiset (Token × ℕ) :=
  ds.map fun d => ((k, d), ttl)

@[simp] theorem lives_zero (k : ForwardPacket) (ttl : ℕ) : lives k 0 ttl = 0 := rfl

theorem lives_add (k : ForwardPacket) (ds es : Multiset NodeId) (ttl : ℕ) :
    lives k (ds + es) ttl = lives k ds ttl + lives k es ttl := Multiset.map_add _ _ _

@[simp] theorem map_fst_lives (k : ForwardPacket) (ds : Multiset NodeId) (ttl : ℕ) :
    (lives k ds ttl).map Prod.fst = tokens k ds := by
  rw [lives, Multiset.map_map]
  rfl

def tokensOf (packet : ForwardPacket) : Multiset Token := tokens (ident packet) (recipients packet)

/-- The lives of a packet that waits or is sent. -/
def heldOf (packet : ForwardPacket) : Multiset (Token × ℕ) :=
  lives (ident packet) (recipients packet) (packet.header.ttl.toNat + 1)

/-- The lives of a packet that arrives. -/
def arrivingOf (packet : ForwardPacket) : Multiset (Token × ℕ) :=
  lives (ident packet) (recipients packet) packet.header.ttl.toNat

@[simp] theorem map_fst_heldOf (packet : ForwardPacket) :
    (heldOf packet).map Prod.fst = tokensOf packet := map_fst_lives _ _ _

@[simp] theorem map_fst_arrivingOf (packet : ForwardPacket) :
    (arrivingOf packet).map Prod.fst = tokensOf packet := map_fst_lives _ _ _

/-! ## Actions -/

def sent (actions : List ForwardAction) : List ForwardPacket :=
  actions.filterMap fun
    | .send _ packet => some packet
    | _ => none

def delivered (actions : List ForwardAction) : List ForwardPacket :=
  actions.filterMap fun
    | .deliverLocal packet => some packet
    | _ => none

/-- The packets given up or handed back with an action that says so. -/
def refused (actions : List ForwardAction) : List ForwardPacket :=
  actions.filterMap fun
    | .drop _ packet => some packet
    | .backpressure _ packet => some packet
    | _ => none

section Actions

variable (a b : List ForwardAction) (link : LinkId) (p : ForwardPacket) (reason : DropReason)
  (timer : ForwardTimer) (due : MonoTime)

@[simp] theorem sent_nil : sent [] = [] := rfl
@[simp] theorem sent_append : sent (a ++ b) = sent a ++ sent b := List.filterMap_append
@[simp] theorem sent_cons_send : sent (.send link p :: a) = p :: sent a := rfl
@[simp] theorem sent_cons_deliverLocal : sent (.deliverLocal p :: a) = sent a := rfl
@[simp] theorem sent_cons_drop : sent (.drop reason p :: a) = sent a := rfl
@[simp] theorem sent_cons_backpressure : sent (.backpressure link p :: a) = sent a := rfl
@[simp] theorem sent_cons_setTimer : sent (.setTimer timer due :: a) = sent a := rfl
@[simp] theorem delivered_nil : delivered [] = [] := rfl
@[simp] theorem delivered_append : delivered (a ++ b) = delivered a ++ delivered b :=
  List.filterMap_append
@[simp] theorem delivered_cons_send : delivered (.send link p :: a) = delivered a := rfl
@[simp] theorem delivered_cons_deliverLocal :
    delivered (.deliverLocal p :: a) = p :: delivered a := rfl
@[simp] theorem delivered_cons_drop : delivered (.drop reason p :: a) = delivered a := rfl
@[simp] theorem delivered_cons_backpressure :
    delivered (.backpressure link p :: a) = delivered a := rfl
@[simp] theorem delivered_cons_setTimer : delivered (.setTimer timer due :: a) = delivered a := rfl
@[simp] theorem refused_nil : refused [] = [] := rfl
@[simp] theorem refused_append : refused (a ++ b) = refused a ++ refused b := List.filterMap_append
@[simp] theorem refused_cons_send : refused (.send link p :: a) = refused a := rfl
@[simp] theorem refused_cons_deliverLocal : refused (.deliverLocal p :: a) = refused a := rfl
@[simp] theorem refused_cons_drop : refused (.drop reason p :: a) = p :: refused a := rfl
@[simp] theorem refused_cons_backpressure :
    refused (.backpressure link p :: a) = p :: refused a := rfl
@[simp] theorem refused_cons_setTimer : refused (.setTimer timer due :: a) = refused a := rfl

end Actions

def sentLives (actions : List ForwardAction) : Multiset (Token × ℕ) :=
  ((sent actions).map heldOf).sum

def deliveredTokens (actions : List ForwardAction) : Multiset Token :=
  ((delivered actions).map fun p => ({(ident p, p.header.destination)} : Multiset Token)).sum

def refusedTokens (actions : List ForwardAction) : Multiset Token :=
  ((refused actions).map tokensOf).sum

/-- The tokens of the packets that conflation replaced. -/
def conflatedTokens (log : List Replacement) : Multiset Token :=
  (log.map fun r => tokensOf r.replaced).sum

theorem map_fst_replaced (log : List Replacement) :
    ((log.map fun r => heldOf r.replaced).sum).map Prod.fst = conflatedTokens log := by
  induction log with
  | nil => rfl
  | cons r log ih =>
    simp only [List.map_cons, List.sum_cons, Multiset.map_add, ih, map_fst_heldOf, conflatedTokens]

section Sums

variable (a b : List ForwardAction)

@[simp] theorem sentLives_append : sentLives (a ++ b) = sentLives a + sentLives b := by
  simp [sentLives]

@[simp] theorem deliveredTokens_append :
    deliveredTokens (a ++ b) = deliveredTokens a + deliveredTokens b := by
  simp [deliveredTokens]

@[simp] theorem refusedTokens_append :
    refusedTokens (a ++ b) = refusedTokens a + refusedTokens b := by
  simp [refusedTokens]

@[simp] theorem conflatedTokens_append (x y : List Replacement) :
    conflatedTokens (x ++ y) = conflatedTokens x + conflatedTokens y := by
  simp [conflatedTokens]

end Sums

/-! ## What a forwarder holds -/

def queueLives (queue : List QueuedPacket) : Multiset (Token × ℕ) :=
  (queue.map fun q => heldOf q.packet).sum

@[simp] theorem queueLives_nil : queueLives [] = 0 := rfl

@[simp] theorem queueLives_cons (q : QueuedPacket) (queue : List QueuedPacket) :
    queueLives (q :: queue) = heldOf q.packet + queueLives queue := by
  simp [queueLives]

@[simp] theorem queueLives_append (x y : List QueuedPacket) :
    queueLives (x ++ y) = queueLives x + queueLives y := by
  simp [queueLives]

def LinkQueues.lives (state : LinkQueues) : Multiset (Token × ℕ) :=
  queueLives (state.queues .p0) + queueLives (state.queues .p1) + queueLives (state.queues .p2) +
    queueLives (state.queues .p3)

/-- Only the queue of one class changes. -/
theorem LinkQueues.lives_update {state state' : LinkQueues} {priority : Priority}
    {queue : List QueuedPacket}
    (h : state'.queues = Function.update state.queues priority queue) :
    state'.lives + queueLives (state.queues priority) = state.lives + queueLives queue := by
  simp only [lives, h]
  cases priority <;> simp only [Function.update_self, ne_eq, reduceCtorEq, not_false_eq_true,
    Function.update_of_ne] <;> abel

theorem LinkQueues.lives_congr {state state' : LinkQueues} (h : state'.queues = state.queues) :
    state'.lives = state.lives := by
  simp only [lives, h]

@[simp] theorem LinkQueues.lives_default : (default : LinkQueues).lives = 0 := rfl

def heldLives (f : Forwarder) : Multiset (Token × ℕ) :=
  OrdMap.total (fun _ state => state.lives) f.links +
    OrdMap.total (fun _ batch => queueLives batch.packets) f.pendingP0

/-- The queue of one class of a link; empty for a link without state. -/
def Forwarder.queue (f : Forwarder) (link : LinkId) (priority : Priority) : List QueuedPacket :=
  (f.linkState link).queues priority

/-- Giving a link a new state exchanges the lives of that link. -/
theorem heldLives_insert (f : Forwarder) (link : LinkId) (state : LinkQueues) :
    heldLives { f with links := f.links.insert link state } + (f.linkState link).lives =
      heldLives f + state.lives := by
  simp only [heldLives]
  cases h : f.links[link]? with
  | none =>
    rw [OrdMap.total_insert_new _ h, Forwarder.linkState, h]
    simp only [Option.getD_none, LinkQueues.lives_default]
    abel
  | some old =>
    rw [OrdMap.total_insert, OrdMap.total_split _ h, Forwarder.linkState, h]
    simp only [Option.getD_some]
    abel

/-! ## Balance -/

/-- Nothing is lost and nothing is made between `f` and `f'`. -/
def Balanced (f : Forwarder) (input : Multiset (Token × ℕ)) (f' : Forwarder)
    (acts : List ForwardAction) : Prop :=
  ∃ gone, heldLives f' + sentLives acts + gone = heldLives f + input ∧
    conflatedTokens f'.conflated + deliveredTokens acts + refusedTokens acts =
      conflatedTokens f.conflated + gone.map Prod.fst

theorem Balanced.refl (f : Forwarder) : Balanced f 0 f [] :=
  ⟨0, by simp [sentLives], by simp [deliveredTokens, refusedTokens]⟩

theorem Balanced.seq {f f1 f2 : Forwarder} {x y : Multiset (Token × ℕ)}
    {a b : List ForwardAction} (h1 : Balanced f x f1 a) (h2 : Balanced f1 y f2 b) :
    Balanced f (x + y) f2 (a ++ b) := by
  obtain ⟨g1, hl1, ht1⟩ := h1
  obtain ⟨g2, hl2, ht2⟩ := h2
  refine ⟨g1 + g2, ?_, ?_⟩
  · calc heldLives f2 + sentLives (a ++ b) + (g1 + g2)
        = heldLives f2 + sentLives b + g2 + (sentLives a + g1) := by
          rw [sentLives_append]; abel
      _ = heldLives f1 + sentLives a + g1 + y := by rw [hl2]; abel
      _ = heldLives f + (x + y) := by rw [hl1]; abel
  · calc conflatedTokens f2.conflated + deliveredTokens (a ++ b) + refusedTokens (a ++ b)
        = conflatedTokens f2.conflated + deliveredTokens b + refusedTokens b +
            (deliveredTokens a + refusedTokens a) := by
          rw [deliveredTokens_append, refusedTokens_append]; abel
      _ = conflatedTokens f1.conflated + deliveredTokens a + refusedTokens a +
            g2.map Prod.fst := by rw [ht2]; abel
      _ = conflatedTokens f.conflated + (g1 + g2).map Prod.fst := by
          rw [ht1, Multiset.map_add]; abel

/-- The same lives, the same log: only the scheduler state differs. -/
theorem Balanced.of_same {f f' : Forwarder} (hl : heldLives f' = heldLives f)
    (hc : f'.conflated = f.conflated) : Balanced f 0 f' [] :=
  ⟨0, by simp [sentLives, hl], by simp [deliveredTokens, refusedTokens, hc]⟩

/-- Lives taken out of `f` before the step are input of the step. -/
theorem Balanced.release {f f1 f' : Forwarder} {x : Multiset (Token × ℕ)}
    {acts : List ForwardAction} (h : Balanced f1 x f' acts) (hl : heldLives f = heldLives f1 + x)
    (hc : f1.conflated = f.conflated) : Balanced f 0 f' acts := by
  obtain ⟨gone, hl1, ht⟩ := h
  refine ⟨gone, ?_, ?_⟩
  · rw [hl1, hl, add_zero]
  · rw [ht, hc]

/-- Lives put aside in `f'` are output of the step. -/
theorem Balanced.keep {f f' : Forwarder} {x : Multiset (Token × ℕ)} {acts : List ForwardAction}
    (hl : heldLives f' = heldLives f + x) (hc : f'.conflated = f.conflated)
    (hs : sent acts = []) (hd : delivered acts = []) (hr : refused acts = []) :
    Balanced f x f' acts :=
  ⟨0, by simp [sentLives, hs, hl], by simp [deliveredTokens, refusedTokens, hd, hr, hc]⟩

theorem Balanced.refuse {f : Forwarder} {k : ForwardPacket} {ds : Multiset NodeId} {ttl : ℕ}
    {act : ForwardAction} {p : ForwardPacket} (hs : sent [act] = []) (hd : delivered [act] = [])
    (hr : refused [act] = [p]) (hp : tokensOf p = tokens k ds) :
    Balanced f (lives k ds ttl) f [act] :=
  ⟨lives k ds ttl, by simp [sentLives, hs], by
    simp [deliveredTokens, refusedTokens, hd, hr, hp]⟩

theorem Balanced.deliver {f : Forwarder} {k : ForwardPacket} {d : NodeId} {ttl : ℕ}
    {p : ForwardPacket} (hk : ident p = k) (hd : p.header.destination = d) :
    Balanced f (lives k {d} ttl) f [.deliverLocal p] :=
  ⟨lives k {d} ttl, by simp [sentLives], by
    simp [deliveredTokens, refusedTokens, tokens, hk, hd]⟩

end Forward
end MeshBus
