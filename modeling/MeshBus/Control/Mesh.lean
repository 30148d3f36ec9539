import MeshBus.Control.Steps

/-!
# Control.Mesh

A finite network of control planes that use `UnsecuredLsaAuth`. A wiring says where a frame sent
on a link of one node comes out; frames in flight are delivered in any order.

One step is an event at a node, the delivery of a frame, or the loss of one. A frame is lost only
while its link is not up at both ends. Nothing is assumed about link ids, about the peer and cost
a `LinkUp` reports, or about time, and a frame may also arrive before its receiver's `LinkUp` (the
plane then ignores it): the runs in which ids are fresh and frames wait are among these.

`run` follows a list of steps through admissible states: at most `maxLsdbEntries` nodes have
originated, and what they originated passes `validLsa`.
-/

namespace MeshBus
namespace Control

/-- The two ends of every link: `far a` is the end a frame sent from `a` arrives at. -/
structure Wiring (ι : Type) where
  far : ι × LinkId → ι × LinkId
  far_far : ∀ a, far (far a) = a

structure InFlight (ι : Type) where
  src : ι × LinkId
  frame : ControlFrame
deriving DecidableEq

structure Mesh (ι : Type) where
  node : ι → ControlPlane
  flight : List (InFlight ι)

/-- `event i now e` is an event at node `i`; frames are named by their place in `flight`. -/
inductive MeshStep (ι : Type) where
  | event (i : ι) (now : MonoTime) (event : ControlEvent)
  | deliver (n : Nat) (now : MonoTime)
  | lose (n : Nat)

/-- Events that reach a node from outside the network; LSA expiry is left out. -/
def ControlEvent.isLocal : ControlEvent → Bool
  | .linkUp .. | .linkDown _ | .localTopicAdsChanged _ => true
  | .frame .. => false
  | .timer (.lsaExpire ..) => false
  | .timer _ => true

namespace Mesh

variable {ι : Type} [DecidableEq ι]

/-- Fresh nodes, nothing in flight. -/
def init (id : ι → NodeId) (epoch : ι → UInt32) (seq : ι → UInt64) : Mesh ι where
  node i := .newUnsecuredWithSeq (id i) (epoch i) (seq i)
  flight := []

/-- The link is up at this end. -/
def Up (c : Mesh ι) (a : ι × LinkId) : Prop := a.2 ∈ (c.node a.1).adjacencies

instance (c : Mesh ι) (a : ι × LinkId) : Decidable (c.Up a) :=
  inferInstanceAs (Decidable (_ ∈ _))

/-- Node `i` is now `p`, and its actions put frames in flight. -/
def emit (c : Mesh ι) (i : ι) (p : ControlPlane) (actions : List ControlAction) : Mesh ι where
  node := Function.update c.node i p
  flight := c.flight ++ (sends actions).map fun s => ⟨(i, s.1), s.2⟩

def step (w : Wiring ι) (c : Mesh ι) : MeshStep ι → Option (Mesh ι)
  | .event i now event =>
    if event.isLocal then
      ((c.node i).handle now event).map fun r => c.emit i r.1 r.2
    else none
  | .deliver n now =>
    match c.flight[n]? with
    | none => none
    | some x =>
      let b := w.far x.src
      ((c.node b.1).handle now (.frame b.2 x.frame)).map fun r =>
        { c with flight := c.flight.eraseIdx n }.emit b.1 r.1 r.2
  | .lose n =>
    match c.flight[n]? with
    | none => none
    | some x =>
      if c.Up x.src ∧ c.Up (w.far x.src) then none
      else some { c with flight := c.flight.eraseIdx n }

variable [Fintype ι]

/-- The nodes that have originated an LSA. -/
def origins (c : Mesh ι) : Finset ι :=
  Finset.univ.filter fun i => (c.node i).me ∈ (c.node i).lsdb

def Admissible (c : Mesh ι) : Prop :=
  c.origins.card ≤ maxLsdbEntries ∧
    ∀ i, ((c.node i).lsa (c.node i).me).all validLsa = true

instance (c : Mesh ι) : Decidable c.Admissible := inferInstanceAs (Decidable (_ ∧ _))

def run (w : Wiring ι) (c : Mesh ι) (steps : List (MeshStep ι)) : Option (Mesh ι) :=
  steps.foldlM (fun c s => (c.step w s).filter fun c' => c'.Admissible) c

/-- Two nodes joined by a link that is up at both ends. -/
def Joined (w : Wiring ι) (c : Mesh ι) (i j : ι) : Prop :=
  ∃ a, a.1 = i ∧ (w.far a).1 = j ∧ c.Up a ∧ c.Up (w.far a)

/-- Two nodes, each link joined to the link of the same id at the other. -/
def pairWiring : Wiring Bool := ⟨fun a => (!a.1, a.2), fun a => by simp⟩

def pairId (i : Bool) : NodeId := .ofByte (if i then 2 else 1)

end Mesh
end Control
end MeshBus
