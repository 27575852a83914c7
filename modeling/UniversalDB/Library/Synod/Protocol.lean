import Mathlib.Data.Fintype.Basic
import Mathlib.Data.Multiset.Count
import UniversalDB.Library.KeyMap
import UniversalDB.Library.TransitionSystem

/-! # Single-decree Paxos over an unreliable network

The textbook protocol: every recorded promise and every counted vote names its sender.
Packets wait in a multiset, so they are delayed and reordered freely, a copy is
delivered at most once, and any packet may be lost. Proposal numbers are arbitrary: two
nodes may use the same number, and a node may use a number again. -/

namespace Synod

variable {N V : Type*}

inductive Body (V : Type*) where
  | prepare (r : ℕ)
  | promise (r k : ℕ) (w : V)
  | accept (r : ℕ) (v : V)
  | learn (r : ℕ) (v : V)

structure Packet (N V : Type*) where
  src : N
  dst : N
  body : Body V

/-- An acceptor's highest number, and the number and value of its last vote. The vote
number is zero as long as there is no vote. -/
structure Acceptor (V : Type*) where
  rnd : ℕ
  vrnd : ℕ
  vval : V

structure State (N V : Type*) where
  acceptor : N → Acceptor V
  proposal : N → KeyMap ℕ V
  promises : N → KeyMap ℕ (List (N × ℕ × V))
  tally : N → KeyMap ℕ (V × List N)
  network : Multiset (Packet N V)

inductive Event (N V : Type*) where
  | proposed (i : N) (v : V)
  | promised (a p : N) (r k : ℕ) (w : V)
  | opened (p : N) (r : ℕ) (v : V)
  | accepted (a : N) (r : ℕ) (v : V)
  | learned (d : N) (r : ℕ) (v : V)

/-- The number of promises or votes that make a quorum, the rule by which a proposer
picks the value of a round from its own value and the promises it counted, a restriction
`ok` on the promises a round may be opened with, and the value of a blank vote. -/
structure Protocol (V : Type*) where
  quorum : ℕ
  select : V → List (ℕ × V) → V
  ok : List (ℕ × V) → Prop
  blank : V

def State.initial (blank : V) : State N V where
  acceptor _ := ⟨0, 0, blank⟩
  proposal _ := KeyMap.empty
  promises _ := KeyMap.empty
  tally _ := KeyMap.empty
  network := 0

section Broadcast

variable [Fintype N]

/-- One copy of a message for every node. -/
def broadcast (src : N) (body : Body V) : Multiset (Packet N V) :=
  Finset.univ.val.map fun dst => ⟨src, dst, body⟩

@[simp] theorem mem_broadcast {src : N} {body : Body V} {packet : Packet N V} :
    packet ∈ broadcast src body ↔ packet.src = src ∧ packet.body = body := by
  obtain ⟨s, d, b⟩ := packet
  simp [broadcast, eq_comm]

end Broadcast

variable [Fintype N] [DecidableEq N]

/-- What a step can do. `lose` also stands for every message that its receiver
ignores. -/
inductive Step (P : Protocol V) (s : State N V) : List (Event N V) → State N V → Prop where
  | lose {packet rest} (hnet : s.network = packet ::ₘ rest) :
      Step P s [] { s with network := rest }
  | propose (i : N) (r : ℕ) (v : V) :
      Step P s [.proposed i v]
        { s with
          proposal := Function.update s.proposal i ((s.proposal i).insert r v)
          promises := Function.update s.promises i ((s.promises i).insert r [])
          network := s.network + broadcast i (.prepare r) }
  | promise {p a r rest} (hnet : s.network = ⟨p, a, .prepare r⟩ ::ₘ rest)
      (hr : (s.acceptor a).rnd < r) :
      Step P s [.promised a p r (s.acceptor a).vrnd (s.acceptor a).vval]
        { s with
          acceptor := Function.update s.acceptor a { s.acceptor a with rnd := r }
          network := rest +
            {⟨a, p, .promise r (s.acceptor a).vrnd (s.acceptor a).vval⟩} }
  | count {a p r k w ps rest} (hnet : s.network = ⟨a, p, .promise r k w⟩ ::ₘ rest)
      (hps : s.promises p r = some ps) (hlt : ps.length + 1 < P.quorum) :
      Step P s []
        { s with
          promises :=
            Function.update s.promises p ((s.promises p).assign r (ps ++ [(a, k, w)]))
          network := rest }
  | open {a p r k w ps own rest} (hnet : s.network = ⟨a, p, .promise r k w⟩ ::ₘ rest)
      (hps : s.promises p r = some ps) (hfull : ps.length + 1 = P.quorum)
      (hown : s.proposal p r = some own)
      (hok : P.ok ((ps ++ [(a, k, w)]).map Prod.snd)) :
      Step P s [.opened p r (P.select own ((ps ++ [(a, k, w)]).map Prod.snd))]
        { s with
          promises :=
            Function.update s.promises p ((s.promises p).assign r (ps ++ [(a, k, w)]))
          network := rest +
            broadcast p (.accept r (P.select own ((ps ++ [(a, k, w)]).map Prod.snd))) }
  | accept {p a r v rest} (hnet : s.network = ⟨p, a, .accept r v⟩ ::ₘ rest)
      (hr : (s.acceptor a).rnd ≤ r) :
      Step P s [.accepted a r v]
        { s with
          acceptor := Function.update s.acceptor a ⟨r, r, v⟩
          network := rest + broadcast a (.learn r v) }
  | hear {a d r v w as rest} (hnet : s.network = ⟨a, d, .learn r v⟩ ::ₘ rest)
      (has : (s.tally d r).getD (v, []) = (w, as)) (hlt : as.length + 1 < P.quorum) :
      Step P s []
        { s with
          tally := Function.update s.tally d ((s.tally d).assign r (w, as ++ [a]))
          network := rest }
  | learn {a d r v w as rest} (hnet : s.network = ⟨a, d, .learn r v⟩ ::ₘ rest)
      (has : (s.tally d r).getD (v, []) = (w, as)) (hfull : as.length + 1 = P.quorum) :
      Step P s [.learned d r w]
        { s with
          tally := Function.update s.tally d ((s.tally d).assign r (w, as ++ [a]))
          network := rest }

/-- The protocol as a transition system. -/
def Protocol.system (P : Protocol V) : TransitionSystem (State N V) (Event N V) where
  init s := s = State.initial P.blank
  step := Step P

end Synod
