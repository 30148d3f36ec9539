import MeshBus.Runtime.Advertise
import MeshBus.Runtime.Live

/-!
# Runtime.Refused

Frames from a link that was refused: its `Up` came without a configured cost, and the loop asked the
endpoint to close it. Until the link is closed its frames keep arriving.

The control plane asks every frame for its adjacency, so control frames of such a link have no
effect: a run is the same without them (`refused_control_is_silent`). The forwarder asks no such
question, and a Forward frame is delivered or forwarded as from any other link
(`refused_forward_is_delivered`).
-/

namespace MeshBus
namespace Runtime

open Control Forward Wire PubSub

/-- A frame of a link that is not live, other than a Forward frame that decodes. -/
def silent (live : Finset LinkId) : RuntimeInput → Bool
  | .link (.frame link frame) => link ∉ live && !(decodeForwardFrame frame).isOk
  | _ => false

/-- The inputs without the silent frames. -/
def heard (live : Finset LinkId) : List (Outside × RuntimeInput) → List (Outside × RuntimeInput)
  | [] => []
  | x :: rest =>
    if silent live x.2 then heard live rest else x :: heard (liveAfter x.1 live x.2) rest

def Effect.isClose : Effect → Bool
  | .close _ => true
  | _ => false

/-- The result of a run without the requests to close a link. -/
def audible (r : RuntimeState × List Effect × Bool) : RuntimeState × List Effect × Bool :=
  (r.1, r.2.1.filter fun e => !e.isClose, r.2.2)

/-- A frame over a link that is no adjacency leaves everything as it is, unless it is a Forward
frame that decodes. -/
theorem iterate_unknownLink {rt : RuntimeState} {link : LinkId} (h : link ∉ rt.plane.adjacencies)
    (build : Build) (outside : Outside) {frame : WireFrame}
    (hframe : (decodeForwardFrame frame).isOk = false) :
    rt.iterate build outside (.link (.frame link frame)) = some (rt, [], true) ∨
      rt.iterate build outside (.link (.frame link frame)) = some (rt, [.close link], true) := by
  simp only [RuntimeState.iterate, RuntimeState.collect, RuntimeState.dispatch,
    RuntimeState.dispatchLink]
  split
  · split
    · exact .inr rfl
    · rename_i packet hpacket
      rw [hpacket] at hframe
      cases hframe
  · split
    · exact .inr rfl
    · refine .inl ?_
      simp only [bind, Option.bind_some, RuntimeState.control, Turn.event, changedSelectors,
        List.findSome?_nil, ControlPlane.handle_unknownLink h, runControl, Bool.not_true,
        Bool.false_eq_true, if_false, executePubSubActions, List.append_nil, List.length_nil,
        executeForwardActions]

theorem iterate_silent {rt : RuntimeState} {live : Finset LinkId} (hinv : Linked.Inv rt live)
    {build : Build} {outside : Outside} {input : RuntimeInput} (h : silent live input = true) :
    ∃ effects : List Effect, rt.iterate build outside input = some (rt, effects, true) ∧
      (effects.filter fun e => !e.isClose) = [] := by
  cases input with
  | link event =>
    cases event with
    | frame link frame =>
      simp only [silent, Bool.and_eq_true, decide_eq_true_eq, Bool.not_eq_true'] at h
      have hlink : link ∉ rt.plane.adjacencies := fun hmem => h.1 ((hinv.plane link).mp hmem)
      rcases iterate_unknownLink hlink build outside h.2 with heq | heq
      · exact ⟨[], heq, rfl⟩
      · exact ⟨[.close link], heq, rfl⟩
    | up | down | sent => cases h
  | forward | pubSub | timer => cases h

/-- A run after an iteration that goes on. -/
theorem audible_run_cons {build : Build} {outside : Outside} {input : RuntimeInput}
    {rt rt' : RuntimeState} {effects : List Effect}
    (h : rt.iterate build outside input = some (rt', effects, true))
    (inputs : List (Outside × RuntimeInput)) :
    (rt.run build ((outside, input) :: inputs)).map audible =
      ((rt'.run build inputs).map audible).map fun r =>
        (r.1, (effects.filter fun e => !e.isClose) ++ r.2.1, r.2.2) := by
  rw [RuntimeState.run, h]
  cases hrest : rt'.run build inputs with
  | none => simp [hrest]
  | some r => simp [hrest, audible]

/-- By induction on the inputs; the inputs that are heard keep the invariant on the live links, the
silent ones keep the state. -/
theorem run_heard {build : Build} : ∀ {inputs : List (Outside × RuntimeInput)} {rt : RuntimeState}
    {live : Finset LinkId}, Linked.Inv rt live →
    (rt.run build inputs).map audible = (rt.run build (heard live inputs)).map audible := by
  intro inputs
  induction inputs with
  | nil => exact fun _ => rfl
  | cons x inputs ih =>
    intro rt live hinv
    obtain ⟨outside, input⟩ := x
    rw [heard]
    split
    · rename_i hsilent
      obtain ⟨effects, hiter, hclose⟩ := iterate_silent hinv hsilent
      rw [audible_run_cons hiter, hclose, ← ih hinv]
      exact Option.map_id'
    · cases hiter : rt.iterate build outside input with
      | none => simp [RuntimeState.run, hiter]
      | some r =>
        obtain ⟨rt1, effects, continues⟩ := r
        cases continues with
        | false => simp [RuntimeState.run, hiter]
        | true => rw [audible_run_cons hiter, audible_run_cons hiter, ih (hinv.iterate hiter)]

/-- The links that are live after a list of inputs. -/
def liveLinks (inputs : List (Outside × RuntimeInput)) : Finset LinkId :=
  inputs.foldl (fun live x => liveAfter x.1 live x.2) ∅

/-- A link whose `Up`s were all refused is not live. -/
theorem not_mem_liveLinks {inputs : List (Outside × RuntimeInput)} {link : LinkId}
    (h : ∀ x ∈ inputs, ∀ peer, x.2 = .link (.up link peer) → x.1.peerCosts[peer]? = none) :
    link ∉ liveLinks inputs := by
  have hfold : ∀ live : Finset LinkId, link ∉ live →
      link ∉ inputs.foldl (fun live x => liveAfter x.1 live x.2) live := by
    induction inputs with
    | nil => exact fun _ hlive => hlive
    | cons x inputs ih =>
      intro live hlive
      refine ih (fun y hy => h y (List.mem_cons_of_mem _ hy)) _ ?_
      simp only [liveAfter]
      split
      · rename_i l peer hx
        split
        · rename_i hcost
          rw [Finset.mem_insert, not_or]
          refine ⟨?_, hlive⟩
          rintro rfl
          rw [h x List.mem_cons_self peer hx] at hcost
          cases hcost
        · exact hlive
      · exact fun hmem => hlive (Finset.mem_of_mem_erase hmem)
      · exact hlive
  exact hfold ∅ (Finset.notMem_empty link)

/-- The invariant at the end of a run that goes on. -/
theorem run_inv {build : Build} : ∀ {inputs : List (Outside × RuntimeInput)}
    {rt rt' : RuntimeState} {live : Finset LinkId} {effects : List Effect}, Linked.Inv rt live →
    rt.run build inputs = some (rt', effects, true) →
    Linked.Inv rt' (inputs.foldl (fun live x => liveAfter x.1 live x.2) live) := by
  intro inputs
  induction inputs with
  | nil =>
    intro rt rt' live effects hinv h
    cases h
    exact hinv
  | cons x inputs ih =>
    intro rt rt' live effects hinv h
    simp only [RuntimeState.run, bind, Option.bind_eq_some_iff] at h
    obtain ⟨⟨rt1, effects1, continues⟩, hiter, h⟩ := h
    cases continues with
    | false => cases h
    | true =>
      simp only [Bool.not_true, Bool.false_eq_true, if_false, Option.bind_eq_some_iff] at h
      obtain ⟨⟨rt2, more, continues⟩, hrest, heq⟩ := h
      cases heq
      exact ih (hinv.iterate hiter) hrest

/-- In every run and at every point of it, a frame over a link whose `Up` was refused leaves the
whole state as it is and asks at most to close the link, unless it is a Forward frame that decodes.
A run without all such frames reaches the same state with the same effects, requests to close a link
apart. -/
theorem refused_control_is_silent (build : Build) (me : NodeId) (epoch : UInt32)
    (persistedSeq : UInt64) (policies : TopicPolicies) (inputs : List (Outside × RuntimeInput)) :
    (∀ rt effects link, (RuntimeState.spawn me epoch persistedSeq policies).run build inputs =
        some (rt, effects, true) →
      (∀ x ∈ inputs, ∀ peer, x.2 = .link (.up link peer) → x.1.peerCosts[peer]? = none) →
      ∀ outside frame, (decodeForwardFrame frame).isOk = false →
        rt.iterate build outside (.link (.frame link frame)) = some (rt, [], true) ∨
          rt.iterate build outside (.link (.frame link frame)) =
            some (rt, [.close link], true)) ∧
    ((RuntimeState.spawn me epoch persistedSeq policies).run build inputs).map audible =
      ((RuntimeState.spawn me epoch persistedSeq policies).run build (heard ∅ inputs)).map
        audible := by
  have hstart := Linked.inv_start me epoch persistedSeq policies
  refine ⟨fun rt effects link hrun hrefused outside frame hframe => ?_, run_heard hstart⟩
  have hlink : link ∉ rt.plane.adjacencies := fun hmem =>
    not_mem_liveLinks hrefused (((run_inv hstart hrun).plane link).mp hmem)
  exact iterate_unknownLink hlink build outside hframe

/-- The neighbour has no cost; its LSA has no effect. -/
theorem refused_control_is_silent_lsa : ∃ rt effects,
    (RuntimeState.spawn (.ofByte 1) 1 0 .empty).run Linked.neighbourBuild
      [(calm 0, .link (.up 7 (.ofByte 2)))] = some (rt, effects, true) ∧
    (rt.iterate Linked.neighbourBuild (calm 1) (.link (.frame 7 Linked.neighbourFrame)) =
        some (rt, [], true) ∨
      rt.iterate Linked.neighbourBuild (calm 1) (.link (.frame 7 Linked.neighbourFrame)) =
        some (rt, [.close 7], true)) := by
  have hfacts : ((RuntimeState.spawn (.ofByte 1) 1 0 .empty).run Linked.neighbourBuild
      [(calm 0, .link (.up 7 (.ofByte 2)))]).map (fun r => r.2.2) = some true := by
    decide +kernel
  obtain ⟨⟨rt, effects, continues⟩, hrun, rfl⟩ := Option.map_eq_some_iff.mp hfacts
  refine ⟨rt, effects, hrun, (refused_control_is_silent Linked.neighbourBuild (.ofByte 1) 1 0 .empty
    [(calm 0, .link (.up 7 (.ofByte 2)))]).1 rt effects 7 hrun ?_ (calm 1) _ rfl⟩
  intro x hx peer _
  rw [List.mem_singleton.mp hx]
  simp [calm]

/-- A packet of node 2 to node 1. -/
def strangerPacket : ForwardPacket :=
  { Linked.neighbourPacket with
    header := { Linked.neighbourPacket.header with destination := .ofByte 1, source := .ofByte 2 } }

def strangerFrame : WireFrame where
  frameType := .forward
  channel := channelForPriority .p1
  payload :=
    match ForwardPacketCodec.encode strangerPacket with
    | .ok payload => payload
    | .error _ => []

/-- The one effect is the delivery of the packet, and the loop goes on. -/
def delivers (packet : ForwardPacket) : List Effect × Bool → Bool
  | ([.forwardOutcome (.delivered delivered)], true) => delivered = packet
  | _ => false

theorem delivers_iff {packet : ForwardPacket} {r : List Effect × Bool} :
    delivers packet r = true ↔ r = ([.forwardOutcome (.delivered packet)], true) := by
  constructor
  · intro h
    unfold delivers at h
    split at h
    · rw [of_decide_eq_true h]
    · cases h
  · rintro rfl
    exact decide_eq_true rfl

/-- Node 2 has no cost, and its link is to be closed. Its packet is delivered to the application. -/
theorem refused_forward_is_delivered : ∃ rt rt',
    (RuntimeState.spawn (.ofByte 1) 1 0 .empty).run plainBuild
      [(calm 0, .link (.up 7 (.ofByte 2)))] = some (rt, [.close 7], true) ∧
    rt.iterate plainBuild (calm 1) (.link (.frame 7 strangerFrame)) =
      some (rt', [.forwardOutcome (.delivered strangerPacket)], true) := by
  have hfacts : (((RuntimeState.spawn (.ofByte 1) 1 0 .empty).iterate plainBuild (calm 1)
      (.link (.frame 7 strangerFrame))).map fun r => delivers strangerPacket r.2) = some true := by
    decide +kernel
  obtain ⟨⟨rt', result⟩, hiter, hdelivers⟩ := Option.map_eq_some_iff.mp hfacts
  have hresult : result = ([.forwardOutcome (.delivered strangerPacket)], true) :=
    delivers_iff.mp hdelivers
  refine ⟨.spawn (.ofByte 1) 1 0 .empty, rt', rfl, ?_⟩
  rw [hiter, hresult]

end Runtime
end MeshBus
