import MeshBus.Forward.Queues
import MeshBus.Lib.Emit

/-!
# Forward.QueueSteps

What the operations of one link do to its four queues. The scheduler (credit, permit, deficits)
decides which head leaves and when; `trySendOne_spec` says that at most one head leaves, and
nothing else changes; `trySendOne_total` that the scheduler never runs out of rounds.
-/

namespace MeshBus
namespace Forward

open Wire

/-! ## Replacing an element -/

theorem replaceFirst_some {α : Type} {p : α → Bool} {new x : α} : ∀ {l l' : List α},
    replaceFirst p new l = some (l', x) →
    ∃ pre post, l = pre ++ x :: post ∧ l' = pre ++ new :: post ∧ l.find? p = some x := by
  intro l
  induction l with
  | nil =>
    intro l' h
    cases h
  | cons a l ih =>
    intro l' h
    simp only [replaceFirst] at h
    split at h
    · rename_i ha
      cases h
      exact ⟨[], l, rfl, rfl, by simp [ha]⟩
    · rename_i ha
      obtain ⟨⟨l1, y⟩, hr, heq⟩ := Option.map_eq_some_iff.mp h
      cases heq
      obtain ⟨pre, post, rfl, rfl, hfind⟩ := ih hr
      refine ⟨a :: pre, post, rfl, rfl, ?_⟩
      rw [List.find?_cons_of_neg ha]
      exact hfind

theorem replaceFirst_none {α : Type} {p : α → Bool} (new : α) : ∀ {l : List α},
    replaceFirst p new l = none ↔ l.find? p = none := by
  intro l
  induction l with
  | nil => simp [replaceFirst]
  | cons a l ih =>
    by_cases ha : p a = true
    · simp [replaceFirst, ha]
    · rw [List.find?_cons_of_neg ha, ← ih]
      simp [replaceFirst, ha]

namespace LinkQueues

/-- The queued packet that conflation would replace by `packet`. -/
def victim (state : LinkQueues) (packet : ForwardPacket) : Option QueuedPacket :=
  (ConflationKey.fromPacket packet).bind fun key =>
    (state.queues packet.header.priority).find? fun old =>
      ConflationKey.fromPacket old.packet = some key

theorem conflate_none {state : LinkQueues} {queued : QueuedPacket} :
    state.conflate queued = none ↔ state.victim queued.packet = none := by
  simp only [conflate, victim]
  cases hk : ConflationKey.fromPacket queued.packet with
  | none => simp
  | some key =>
    simp only [Option.bind_some]
    rw [← replaceFirst_none queued]
    split
    · rename_i hnone
      simp [hnone]
    · rename_i hsome
      simp [hsome]

theorem conflate_some {state state' : LinkQueues} {queued old : QueuedPacket}
    (h : state.conflate queued = some (state', old)) :
    state.victim queued.packet = some old ∧ ∃ pre post,
      state.queues queued.packet.header.priority = pre ++ old :: post ∧
      state'.queues = Function.update state.queues queued.packet.header.priority
        (pre ++ queued :: post) := by
  simp only [conflate] at h
  split at h
  · cases h
  · rename_i key hkey
    split at h
    · cases h
    · rename_i queue old' hrep
      cases h
      obtain ⟨pre, post, hqueue, rfl, hfind⟩ := replaceFirst_some hrep
      exact ⟨by simp only [victim, hkey, Option.bind_some]; exact hfind, pre, post, hqueue, rfl⟩

@[simp] theorem advanceDrr_queues (state : LinkQueues) : state.advanceDrr.queues = state.queues :=
  rfl

@[simp] theorem clearDeficit_queues (state : LinkQueues) (i : Fin 3) :
    (state.clearDeficit i).queues = state.queues := rfl

@[simp] theorem addQuantum_queues (state : LinkQueues) (i : Fin 3) :
    (state.addQuantum i).queues = state.queues := by
  rw [addQuantum]
  split <;> rfl

/-- One head leaves, or nothing does. -/
inductive Sends (state : LinkQueues) : LinkQueues → Option QueuedPacket → Prop
  | nothing {state' : LinkQueues} (same : state'.queues = state.queues) : Sends state state' none
  | head {state' : LinkQueues} (priority : Priority) (queued : QueuedPacket)
      (rest : List QueuedPacket) (front : state.queues priority = queued :: rest)
      (popped : state'.queues = Function.update state.queues priority rest) :
      Sends state state' (some queued)

/-- What is left of a link once class `i` has been served: a class that runs empty loses its deficit
and its turn. -/
def served (state : LinkQueues) (i : Fin 3) (queued : QueuedPacket) (rest : List QueuedPacket) :
    LinkQueues :=
  let state := state.addQuantum i
  let state := { state with
    deficitBytes := Function.update state.deficitBytes i
      (state.deficitBytes i - queued.packet.encodedLen) }
  let popped := state.popFront (drrPriority i) queued rest
  if rest.isEmpty then (popped.clearDeficit i).advanceDrr else popped

/-- The rounds of the DRR loop, up to the round that sends or to the state where no head fits the
credit. -/
inductive Rounds : LinkQueues → LinkQueues → Option QueuedPacket → Prop
  | stop {state : LinkQueues} (fits : state.aPacketFitsCredit = false) : Rounds state state none
  | empty {state state' : LinkQueues} {sent : Option QueuedPacket} (i : Fin 3)
      (fits : state.aPacketFitsCredit = true) (turn : state.nextDrr = i)
      (queue : state.queues (drrPriority i) = [])
      (next : Rounds (state.clearDeficit i).advanceDrr state' sent) : Rounds state state' sent
  | skip {state state' : LinkQueues} {sent : Option QueuedPacket} (i : Fin 3)
      (queued : QueuedPacket) (rest : List QueuedPacket)
      (fits : state.aPacketFitsCredit = true) (turn : state.nextDrr = i)
      (queue : state.queues (drrPriority i) = queued :: rest)
      (waits : (state.addQuantum i).deficitBytes i < queued.packet.encodedLen ∨
        state.availableCreditBytes < queued.packet.encodedLen)
      (next : Rounds (state.addQuantum i).advanceDrr state' sent) : Rounds state state' sent
  | serve {state : LinkQueues} (i : Fin 3) (queued : QueuedPacket) (rest : List QueuedPacket)
      (turn : state.nextDrr = i) (queue : state.queues (drrPriority i) = queued :: rest)
      (deficit : queued.packet.encodedLen ≤ (state.addQuantum i).deficitBytes i)
      (credit : queued.packet.encodedLen ≤ state.availableCreditBytes) :
      Rounds state (state.served i queued rest) (some queued)

@[simp] theorem addQuantum_credit (state : LinkQueues) (i : Fin 3) :
    (state.addQuantum i).availableCreditBytes = state.availableCreditBytes := by
  rw [addQuantum]
  split <;> rfl

@[simp] theorem addQuantum_bytes (state : LinkQueues) (i : Fin 3) :
    (state.addQuantum i).queuedBytes = state.queuedBytes := by
  rw [addQuantum]
  split <;> rfl

@[simp] theorem addQuantum_writable (state : LinkQueues) (i : Fin 3) :
    (state.addQuantum i).writable = state.writable := by
  rw [addQuantum]
  split <;> rfl

theorem drrLoop_rounds : ∀ {fuel : Nat} {state state' : LinkQueues} {sent : Option QueuedPacket},
    drrLoop fuel state = some (state', sent) → Rounds state state' sent := by
  intro fuel
  induction fuel with
  | zero =>
    intro state state' sent h
    cases h
  | succ fuel ih =>
    intro state state' sent h
    simp only [drrLoop] at h
    split at h
    · rename_i hfits
      cases h
      exact .stop (by simpa using hfits)
    · rename_i hfits
      simp only [Bool.not_eq_true', Bool.not_eq_false] at hfits
      split at h
      · rename_i hlt
        split at h
        · rename_i hqueue
          exact .empty ⟨_, hlt⟩ hfits rfl hqueue (ih h)
        · rename_i queued rest hqueue
          split at h
          · rename_i hwait
            simp only [addQuantum_credit, Bool.or_eq_true, decide_eq_true_eq] at hwait
            exact .skip ⟨_, hlt⟩ queued rest hfits rfl hqueue hwait (ih h)
          · rename_i hgo
            simp only [addQuantum_credit, Bool.or_eq_true, decide_eq_true_eq, not_or, not_lt] at hgo
            cases h
            exact .serve ⟨_, hlt⟩ queued rest rfl hqueue hgo.1 hgo.2
      · cases h

theorem served_queues (state : LinkQueues) (i : Fin 3) (queued : QueuedPacket)
    (rest : List QueuedPacket) :
    (state.served i queued rest).queues = Function.update state.queues (drrPriority i) rest := by
  simp only [served]
  split <;> simp [popFront]

theorem served_bytes (state : LinkQueues) (i : Fin 3) (queued : QueuedPacket)
    (rest : List QueuedPacket) :
    (state.served i queued rest).queuedBytes = Function.update state.queuedBytes (drrPriority i)
      (state.queuedBytes (drrPriority i) - queued.packet.encodedLen) := by
  simp only [served]
  split <;> simp [popFront, clearDeficit, advanceDrr]

@[simp] theorem served_credit (state : LinkQueues) (i : Fin 3) (queued : QueuedPacket)
    (rest : List QueuedPacket) : (state.served i queued rest).availableCreditBytes =
      state.availableCreditBytes - queued.packet.encodedLen := by
  simp only [served]
  split <;> simp [popFront, clearDeficit, advanceDrr]

@[simp] theorem served_writable (state : LinkQueues) (i : Fin 3) (queued : QueuedPacket)
    (rest : List QueuedPacket) : (state.served i queued rest).writable = false := by
  simp only [served]
  split <;> rfl

/-- What `try_send_one` can do. -/
inductive Tries (state : LinkQueues) : LinkQueues → Option QueuedPacket → Prop
  | noPermit (permit : state.writable = false) : Tries state state none
  | short (permit : state.writable = true) (queued : QueuedPacket) (rest : List QueuedPacket)
      (front : state.queues .p0 = queued :: rest)
      (credit : state.availableCreditBytes < queued.packet.encodedLen) : Tries state state none
  | first (permit : state.writable = true) (queued : QueuedPacket) (rest : List QueuedPacket)
      (front : state.queues .p0 = queued :: rest)
      (credit : queued.packet.encodedLen ≤ state.availableCreditBytes) :
      Tries state (state.popFront .p0 queued rest) (some queued)
  | rounds {state' : LinkQueues} {sent : Option QueuedPacket} (permit : state.writable = true)
      (noFirst : state.queues .p0 = []) (rounds : Rounds state state' sent) :
      Tries state state' sent

theorem trySendOne_tries {state state' : LinkQueues} {sent : Option QueuedPacket}
    (h : state.trySendOne = some (state', sent)) : Tries state state' sent := by
  simp only [trySendOne] at h
  split at h
  · rename_i hw
    cases h
    exact .noPermit (by simpa using hw)
  · rename_i hw
    simp only [Bool.not_eq_true', Bool.not_eq_false] at hw
    split at h
    · rename_i queued rest hqueue
      split at h
      · rename_i hshort
        cases h
        exact .short hw queued rest hqueue hshort
      · rename_i hfits
        cases h
        exact .first hw queued rest hqueue (Nat.le_of_not_lt hfits)
    · rename_i hqueue
      exact .rounds hw hqueue (drrLoop_rounds h)

/-- Nothing can be sent: the P0 head exceeds the credit, or there is none and every other head
does. -/
def Blocked (state : LinkQueues) : Prop :=
  (∃ queued rest, state.queues .p0 = queued :: rest ∧
    state.availableCreditBytes < queued.packet.encodedLen) ∨
  (state.queues .p0 = [] ∧ ∀ priority queued rest, state.queues priority = queued :: rest →
    state.availableCreditBytes < queued.packet.encodedLen)

/-- What `try_send_one` does to everything but the scheduler: one head leaves, charged to the credit
and the permit, or nothing changes. -/
inductive Took (state : LinkQueues) : LinkQueues → Option QueuedPacket → Prop
  | nothing {state' : LinkQueues} (queues : state'.queues = state.queues)
      (bytes : state'.queuedBytes = state.queuedBytes)
      (credit : state'.availableCreditBytes = state.availableCreditBytes)
      (writable : state'.writable = state.writable)
      (why : state.writable = true → state.Blocked) : Took state state' none
  | head {state' : LinkQueues} (priority : Priority) (queued : QueuedPacket)
      (rest : List QueuedPacket) (permit : state.writable = true)
      (strict : priority = .p0 ∨ state.queues .p0 = [])
      (front : state.queues priority = queued :: rest)
      (fits : queued.packet.encodedLen ≤ state.availableCreditBytes)
      (queues : state'.queues = Function.update state.queues priority rest)
      (bytes : state'.queuedBytes = Function.update state.queuedBytes priority
        (state.queuedBytes priority - queued.packet.encodedLen))
      (credit : state'.availableCreditBytes =
        state.availableCreditBytes - queued.packet.encodedLen)
      (writable : state'.writable = false) : Took state state' (some queued)

/-- A round that sends nothing changes the scheduler only. -/
theorem Took.of_round {state next state' : LinkQueues} {sent : Option QueuedPacket}
    (hqueues : next.queues = state.queues) (hbytes : next.queuedBytes = state.queuedBytes)
    (hcredit : next.availableCreditBytes = state.availableCreditBytes)
    (hwritable : next.writable = state.writable) (h : Took next state' sent) :
    Took state state' sent := by
  cases h with
  | nothing queues bytes credit writable why =>
    rw [Blocked, hwritable, hqueues, hcredit] at why
    exact .nothing (queues.trans hqueues) (bytes.trans hbytes) (credit.trans hcredit)
      (writable.trans hwritable) why
  | head priority queued rest permit strict front fits queues bytes credit writable =>
    rw [hqueues] at strict front queues
    rw [hbytes] at bytes
    rw [hcredit] at fits credit
    exact .head priority queued rest (hwritable ▸ permit) strict front fits queues bytes credit
      writable

theorem headFits_eq_false {state : LinkQueues} {priority : Priority}
    (h : state.headFits priority = false) : ∀ queued rest,
    state.queues priority = queued :: rest →
      state.availableCreditBytes < queued.packet.encodedLen := by
  intro queued rest hqueue
  rw [headFits, hqueue] at h
  simpa using h

theorem Rounds.took {state state' : LinkQueues} {sent : Option QueuedPacket}
    (h : Rounds state state' sent) (hw : state.writable = true) (hp0 : state.queues .p0 = []) :
    Took state state' sent := by
  induction h with
  | stop fits =>
    refine .nothing rfl rfl rfl rfl fun _ => .inr ⟨hp0, ?_⟩
    simp only [aPacketFitsCredit, Bool.or_eq_false_iff] at fits
    obtain ⟨⟨h1, h2⟩, h3⟩ := fits
    intro priority queued rest hqueue
    cases priority with
    | p0 => simp [hp0] at hqueue
    | p1 => exact headFits_eq_false h1 queued rest hqueue
    | p2 => exact headFits_eq_false h2 queued rest hqueue
    | p3 => exact headFits_eq_false h3 queued rest hqueue
  | empty i fits turn queue next ih =>
    refine (ih ?_ ?_).of_round ?_ ?_ ?_ ?_ <;> simp [advanceDrr, clearDeficit, hw, hp0]
  | skip i queued rest fits turn queue waits next ih =>
    refine (ih ?_ ?_).of_round ?_ ?_ ?_ ?_ <;> simp [advanceDrr, hw, hp0]
  | serve i queued rest turn queue deficit credit =>
    exact .head (drrPriority i) queued rest hw (.inr hp0) queue credit
      (served_queues _ i queued rest) (served_bytes _ i queued rest)
      (served_credit _ i queued rest) (served_writable _ i queued rest)

theorem Tries.took {state state' : LinkQueues} {sent : Option QueuedPacket}
    (h : Tries state state' sent) : Took state state' sent := by
  cases h with
  | noPermit permit =>
    exact .nothing rfl rfl rfl rfl fun hw => by simp [hw] at permit
  | short permit queued rest front credit =>
    exact .nothing rfl rfl rfl rfl fun _ => .inl ⟨queued, rest, front, credit⟩
  | first permit queued rest front credit =>
    exact .head .p0 queued rest permit (.inl rfl) front credit rfl rfl rfl rfl
  | rounds permit noFirst rounds => exact rounds.took permit noFirst

theorem trySendOne_spec {state state' : LinkQueues} {sent : Option QueuedPacket}
    (h : state.trySendOne = some (state', sent)) : Sends state state' sent := by
  cases (trySendOne_tries h).took with
  | nothing queues => exact .nothing queues
  | head priority queued rest permit strict front fits queues =>
    exact .head priority queued rest front queues

/-! ## The scheduler ends -/

/-- Rounds until the head of class `i`, of length `len`, is served at the latest. -/
def roundsLeft (state : LinkQueues) (i : Fin 3) (len : Nat) : Nat :=
  3 * ((len - state.deficitBytes i + 1023) / 1024) + (i.val + 3 - state.nextDrr) % 3 +
    if state.drrNeedsQuantum then 0 else 3

theorem quantum_ge (i : Fin 3) : 1024 ≤ drrQuantumBytes i := by
  fin_cases i <;> decide

/-- A round that serves another class. -/
theorem roundsLeft_other {state state' : LinkQueues} {i : Fin 3} {len : Nat}
    (hlt : state.nextDrr < 3) (hne : state.nextDrr ≠ i.val)
    (hd : state'.deficitBytes i = state.deficitBytes i)
    (hn : state'.nextDrr = (state.nextDrr + 1) % 3) (hq : state'.drrNeedsQuantum = true) :
    state'.roundsLeft i len < state.roundsLeft i len := by
  have hi := i.isLt
  simp only [roundsLeft, hd, hn, hq, if_true]
  split <;> omega

/-- A round at the class itself that does not serve it. -/
theorem roundsLeft_own {state : LinkQueues} {i : Fin 3} {len : Nat} (heq : state.nextDrr = i.val)
    (hlen : len ≤ u64Max) (hshort : (state.addQuantum i).deficitBytes i < len) :
    (state.addQuantum i).advanceDrr.roundsLeft i len < state.roundsLeft i len := by
  have hi := i.isLt
  have hquantum := quantum_ge i
  cases hq : state.drrNeedsQuantum with
  | true =>
    have hdef : (state.addQuantum i).deficitBytes i =
        satAdd (state.deficitBytes i) (drrQuantumBytes i) := by
      simp [addQuantum, hq]
    rw [hdef, satAdd] at hshort
    have hgain : state.deficitBytes i + drrQuantumBytes i =
        (state.addQuantum i).deficitBytes i := by
      rw [hdef, satAdd]
      omega
    have hnext : (state.addQuantum i).nextDrr = state.nextDrr := by simp [addQuantum, hq]
    simp only [roundsLeft, advanceDrr, hnext, heq, if_true, hq, ← hgain]
    omega
  | false =>
    have hsame : state.addQuantum i = state := by simp [addQuantum, hq]
    rw [hsame] at hshort ⊢
    simp only [roundsLeft, advanceDrr, heq, if_true, hq]
    simp only [Bool.false_eq_true, if_false]
    omega

theorem addQuantum_deficit_ne (state : LinkQueues) {i j : Fin 3} (h : j ≠ i) :
    (state.addQuantum i).deficitBytes j = state.deficitBytes j := by
  rw [addQuantum]
  split
  · exact Function.update_of_ne h _ _
  · rfl

@[simp] theorem addQuantum_nextDrr (state : LinkQueues) (i : Fin 3) :
    (state.addQuantum i).nextDrr = state.nextDrr := by
  rw [addQuantum]
  split <;> rfl

theorem advanceDrr_lt (state : LinkQueues) : state.advanceDrr.nextDrr < 3 := Nat.mod_lt _ (by omega)

/-- With a head that fits the credit the loop ends, by induction on the rounds left for it. -/
theorem drrLoop_total {i : Fin 3} : ∀ {fuel : Nat} {state : LinkQueues} {queued : QueuedPacket}
    {rest : List QueuedPacket}, state.nextDrr < 3 →
    state.queues (drrPriority i) = queued :: rest →
    queued.packet.encodedLen ≤ state.availableCreditBytes →
    state.roundsLeft i queued.packet.encodedLen < fuel →
    Ends (drrLoop fuel state) fun r => r.1.nextDrr < 3 := by
  intro fuel
  induction fuel with
  | zero =>
    intro state queued rest _ _ _ hfuel
    omega
  | succ fuel ih =>
    intro state queued rest hlt hqueue hfits hfuel
    simp only [drrLoop]
    split
    · exact .pure hlt
    by_cases hown : state.nextDrr = i.val
    · have hi : (⟨state.nextDrr, hlt⟩ : Fin 3) = i := Fin.ext hown
      rw [hi, hqueue]
      simp only [addQuantum_credit]
      split
      · rename_i hwait
        have hshort : (state.addQuantum i).deficitBytes i < queued.packet.encodedLen := by
          simp only [Bool.or_eq_true, decide_eq_true_eq] at hwait
          omega
        have hless := roundsLeft_own hown queued.packet.encodedLen_le hshort
        refine ih (advanceDrr_lt _) (by simpa using hqueue) ?_ (by omega)
        simpa [advanceDrr] using hfits
      · split
        · exact .pure (advanceDrr_lt _)
        · exact .pure (by simpa [popFront] using hlt)
    · have hne : i ≠ ⟨state.nextDrr, hlt⟩ := fun h => hown (by rw [h])
      split
      · refine ih (advanceDrr_lt _) hqueue hfits ?_
        have hless : (state.clearDeficit ⟨_, hlt⟩).advanceDrr.roundsLeft i
            queued.packet.encodedLen < state.roundsLeft i queued.packet.encodedLen :=
          roundsLeft_other hlt hown (Function.update_of_ne hne _ _) rfl rfl
        omega
      · split
        · refine ih (advanceDrr_lt _) (by simpa using hqueue)
            (by simpa [advanceDrr] using hfits) ?_
          have hless : (state.addQuantum ⟨_, hlt⟩).advanceDrr.roundsLeft i
              queued.packet.encodedLen < state.roundsLeft i queued.packet.encodedLen :=
            roundsLeft_other hlt hown (addQuantum_deficit_ne state hne) (by simp [advanceDrr]) rfl
          omega
        · split
          · exact .pure (advanceDrr_lt _)
          · exact .pure (by simpa [popFront] using hlt)

theorem exists_head_of_fits {state : LinkQueues} (h : state.aPacketFitsCredit = true) :
    ∃ i queued rest, state.queues (drrPriority i) = queued :: rest ∧
      queued.packet.encodedLen ≤ state.availableCreditBytes := by
  have key : ∀ i, state.headFits (drrPriority i) = true → ∃ queued rest,
      state.queues (drrPriority i) = queued :: rest ∧
        queued.packet.encodedLen ≤ state.availableCreditBytes := by
    intro i hi
    rw [headFits] at hi
    cases hq : state.queues (drrPriority i) with
    | nil => simp [hq] at hi
    | cons queued rest => exact ⟨queued, rest, rfl, by simpa [hq] using hi⟩
  simp only [aPacketFitsCredit, Bool.or_eq_true] at h
  rcases h with (h | h) | h
  · exact ⟨0, key 0 h⟩
  · exact ⟨1, key 1 h⟩
  · exact ⟨2, key 2 h⟩

/-- The loop ends within `drrFuel` rounds. -/
theorem drrLoop_drrFuel {state : LinkQueues} (h : state.nextDrr < 3) :
    Ends (drrLoop state.drrFuel state) fun r => r.1.nextDrr < 3 := by
  cases hfits : state.aPacketFitsCredit with
  | false => simp [drrFuel, drrLoop, hfits, Ends, h]
  | true =>
    obtain ⟨i, queued, rest, hqueue, hlen⟩ := exists_head_of_fits hfits
    refine drrLoop_total h hqueue hlen ?_
    have hi := i.isLt
    simp only [roundsLeft, drrFuel]
    split <;> omega

theorem trySendOne_total {state : LinkQueues} (h : state.nextDrr < 3) :
    Ends state.trySendOne fun r => r.1.nextDrr < 3 := by
  simp only [trySendOne]
  split
  · exact .pure h
  · split
    · split
      · exact .pure h
      · exact .pure h
    · exact drrLoop_drrFuel h

end LinkQueues
end Forward
end MeshBus
