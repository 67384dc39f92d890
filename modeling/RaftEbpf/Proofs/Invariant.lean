import RaftEbpf.Conditions

/-!
# `RaftEbpf.Proofs.Invariant`: invariants of single nodes and messages

Many invariants of the cluster say one thing of each member and one thing of each envelope
in flight. To prove such an invariant is to look at one handler at a time: `Kept` lists the
handlers, and `Kept.invariant` is the induction over a run, with any loss, duplication,
delay and any restarts.

The counters of the members are short of `u64::MAX` throughout, so a handler is only looked
at where they are short before it and after it.
-/

set_option autoImplicit false

namespace RaftEbpf

open RaftNode

/-- The programs that a member runs: on a timer, on a proposal, or on an envelope addressed
to it of which `P` holds. -/
inductive Handler (P : Packet → Prop) (id : String) : Option RaftMessage → NodeProg Unit → Prop
    where
  | startElection : Handler P id none startElection
  | sendHeartbeats : Handler P id none sendHeartbeats
  | propose (command : Command) (tx : Sender) : Handler P id none (propose command tx)
  | receive (p : Packet) (hp : P p) (hid : p.envelope.recipient.asStr = id) :
      Handler P id (some p.envelope.message) (handleMessage p.envelope)

/-- `N` says something of each member and `P` of each envelope, and a member that runs a
handler or starts again keeps both. -/
structure Kept (m : Membership) (N : String → RaftNode → Prop) (P : Packet → Prop) : Prop where
  initial : ∀ id ∈ m.ids, N id (m.initial.nodes id)
  run : ∀ id ∈ m.ids, ∀ n cause prog, N id n → Handler P id cause prog → n.CountersShort →
    (prog.run [] n).state.CountersShort →
      N id (prog.run [] n).state ∧
      ∀ env, .send env ∈ (prog.run [] n).out → P ⟨env, cause, (prog.run [] n).state⟩
  restart : ∀ id ∈ m.ids, ∀ n n', N id n →
    RaftNode.new id (m.peersOf id) n.log.dataDir = some n' → N id n'

/-- What `N` and `P` say of a cluster. -/
structure Cluster.All (m : Membership) (N : String → RaftNode → Prop) (P : Packet → Prop)
    (c : Cluster) : Prop where
  nodes : ∀ id ∈ m.ids, N id (c.nodes id)
  packets : ∀ p ∈ c.network, P p

section
variable {m : Membership} {N : String → RaftNode → Prop} {P : Packet → Prop} {c c' : Cluster}

/-- Envelopes may be lost or duplicated. -/
theorem Cluster.All.network (h : c.All m N P) {net : List Packet}
    (hnet : ∀ p ∈ net, p ∈ c.network) : Cluster.All m N P { c with network := net } :=
  ⟨h.nodes, fun p hp => h.packets p (hnet p hp)⟩

/-- One member runs one handler. -/
theorem Kept.runAt (hk : Kept m N P) (h : c.All m N P) {id : String} (hid : id ∈ m.ids)
    {cause : Option RaftMessage} {prog : NodeProg Unit} (hh : Handler P id cause prog)
    (hshort : c.CountersShort m) (hshort' : (c.runAt id cause prog).CountersShort m) :
    (c.runAt id cause prog).All m N P := by
  have hself : (c.runAt id cause prog).nodes id = (prog.run [] (c.nodes id)).state := by
    simp [Cluster.runAt]
  obtain ⟨hn, hsent⟩ := hk.run id hid _ _ _ (h.nodes id hid) hh (hshort id hid)
    (hself ▸ hshort' id hid)
  constructor
  · intro v hv
    by_cases hvi : v = id
    · rw [hvi, hself]
      exact hn
    · have hother : (c.runAt id cause prog).nodes v = c.nodes v := by simp [Cluster.runAt, hvi]
      rw [hother]
      exact h.nodes v hv
  · intro p hp
    rcases List.mem_append.mp hp with hp | hp
    · exact h.packets p hp
    · obtain ⟨o, ho, hpo⟩ := List.mem_filterMap.mp hp
      cases o with
      | send env =>
          obtain rfl := Option.some.inj hpo
          exact hsent env ho
      | _ => cases hpo

/-- Each step of the cluster keeps the invariant. -/
theorem Kept.step (hk : Kept m N P) (h : c.All m N P) {a : Action}
    (hstep : m.step c a = some c') (hshort : c.CountersShort m) (hshort' : c'.CountersShort m) :
    c'.All m N P := by
  cases Membership.moves_of_step hstep with
  | startElection hid => exact hk.runAt h hid .startElection hshort hshort'
  | sendHeartbeats hid => exact hk.runAt h hid .sendHeartbeats hshort hshort'
  | @propose id command hid =>
      have hrun := hk.runAt h hid (.propose command c.proposals) hshort hshort'
      exact ⟨hrun.nodes, hrun.packets⟩
  | @deliver k p hp hid =>
      have hnet : Cluster.All m N P { c with network := c.network.eraseIdx k } :=
        h.network fun q hq => List.mem_of_mem_eraseIdx hq
      exact hk.runAt hnet hid (.receive p (h.packets p (List.mem_of_getElem? hp)) rfl)
        hshort hshort'
  | drop k => exact h.network fun q hq => List.mem_of_mem_eraseIdx hq
  | @duplicate k p hp =>
      refine h.network fun q hq => ?_
      rcases List.mem_append.mp hq with hq | hq
      · exact hq
      · obtain rfl := List.mem_singleton.mp hq
        exact List.mem_of_getElem? hp
  | @restart id n hid hnew =>
      refine ⟨fun v hv => ?_, h.packets⟩
      show N v (Function.update c.nodes id n v)
      by_cases hvi : v = id
      · subst hvi
        rw [Function.update_self]
        exact hk.restart v hid _ n (h.nodes v hid) hnew
      · rw [Function.update_of_ne hvi]
        exact h.nodes v hv

/-- The invariant holds in every state of a run whose counters stay short. -/
theorem Kept.invariant (hk : Kept m N P) {ok : Cluster → Action → Prop} {tr : List Cluster}
    (hrun : m.Run ok tr) (hshort : ∀ c ∈ tr, c.CountersShort m) : ∀ c ∈ tr, c.All m N P := by
  refine (hrun.restrict hshort).invariant (I := fun c => c.All m N P) ?_ ?_
  · exact ⟨hk.initial, by simp [Membership.initial]⟩
  · rintro c a c' h ⟨-, hc, hc'⟩ hstep
    exact hk.step h hstep hc (hc' c' hstep)

end

/-! ### One member across a step -/

/-- Across a step a member stays as it is, runs one handler, or starts again. -/
inductive Membership.Across (m : Membership) (P : Packet → Prop) (v : String) (n : RaftNode) :
    Action → RaftNode → Prop where
  | same {a : Action} : m.Across P v n a n
  | ran {a : Action} {cause : Option RaftMessage} {prog : NodeProg Unit}
      (ha : a.restarts v = false) (h : Handler P v cause prog) :
      m.Across P v n a (prog.run [] n).state
  | restarted {n' : RaftNode} (h : RaftNode.new v (m.peersOf v) n.log.dataDir = some n') :
      m.Across P v n (.restart v) n'

/-- The inversion of a step, for one member. -/
theorem Membership.across_of_step {m : Membership} {P : Packet → Prop} {c c' : Cluster}
    {a : Action} (hP : ∀ p ∈ c.network, P p) (hstep : m.step c a = some c') (v : String) :
    m.Across P v (c.nodes v) a (c'.nodes v) := by
  have hrun : ∀ {c₀ : Cluster} {id : String} {cause : Option RaftMessage} {prog : NodeProg Unit},
      c₀.nodes = c.nodes → a.restarts v = false → Handler P id cause prog →
      m.Across P v (c.nodes v) a ((c₀.runAt id cause prog).nodes v) := by
    intro c₀ id cause prog hc₀ ha hh
    by_cases hv : v = id
    · subst hv
      simp only [Cluster.runAt, Function.update_self, hc₀]
      exact .ran ha hh
    · simp only [Cluster.runAt, Function.update_of_ne hv, hc₀]
      exact .same
  cases Membership.moves_of_step hstep with
  | startElection hid => exact hrun rfl rfl .startElection
  | sendHeartbeats hid => exact hrun rfl rfl .sendHeartbeats
  | propose hid => exact hrun rfl rfl (.propose _ _)
  | @deliver k p hp hid =>
      exact @hrun { c with network := c.network.eraseIdx k } _ _ _ rfl rfl
        (.receive p (hP p (List.mem_of_getElem? hp)) rfl)
  | drop k => exact .same
  | duplicate hp => exact .same
  | @restart id n hid hnew =>
      by_cases hv : v = id
      · subst hv
        simp only [Function.update_self]
        exact .restarted hnew
      · simp only [Function.update_of_ne hv]
        exact .same

/-! ### One step, with the action it is -/

/-- The program that an action runs, and where. -/
inductive Membership.Runs (c : Cluster) :
    Action → String → Option RaftMessage → NodeProg Unit → Prop where
  | startElection {id : String} : Runs c (.startElection id) id none startElection
  | sendHeartbeats {id : String} : Runs c (.sendHeartbeats id) id none sendHeartbeats
  | propose {id : String} {command : Command} :
      Runs c (.propose id command) id none (propose command c.proposals)
  | deliver {k : Nat} {p : Packet} (hp : p ∈ c.network) :
      Runs c (.deliver k) p.envelope.recipient.asStr (some p.envelope.message)
        (handleMessage p.envelope)

/-- What holds of each member and of each envelope holds after a step, if it holds of the member
that ran and of what it sent, or of the member that started again. -/
theorem Cluster.All.of_step {m : Membership} {N : String → RaftNode → Prop} {P : Packet → Prop}
    {c c' : Cluster} (h : c.All m N P) {a : Action} (hstep : m.step c a = some c')
    (hrun : ∀ id ∈ m.ids, ∀ cause prog, Membership.Runs c a id cause prog →
      N id (prog.run [] (c.nodes id)).state ∧ ∀ env, .send env ∈ (prog.run [] (c.nodes id)).out →
        P ⟨env, cause, (prog.run [] (c.nodes id)).state⟩)
    (hrestart : ∀ id ∈ m.ids, ∀ n,
      RaftNode.new id (m.peersOf id) (c.nodes id).log.dataDir = some n → N id n) : c'.All m N P := by
  have hran : ∀ {c₀ : Cluster} {id : String} {cause : Option RaftMessage} {prog : NodeProg Unit},
      c₀.nodes = c.nodes → (∀ p ∈ c₀.network, p ∈ c.network) → id ∈ m.ids →
      Membership.Runs c a id cause prog → (c₀.runAt id cause prog).All m N P := by
    intro c₀ id cause prog hnodes hnet hid hr
    obtain ⟨hnode, hsent⟩ := hrun id hid cause prog hr
    constructor
    · intro v hv
      by_cases hvi : v = id
      · subst hvi
        simpa only [Cluster.runAt, Function.update_self, hnodes] using hnode
      · simpa only [Cluster.runAt, Function.update_of_ne hvi, hnodes] using h.nodes v hv
    · intro p hp
      rcases List.mem_append.mp hp with hp | hp
      · exact h.packets p (hnet p hp)
      · obtain ⟨o, ho, hpo⟩ := List.mem_filterMap.mp hp
        rw [hnodes] at ho hpo
        cases o with
        | send env =>
            obtain rfl := Option.some.inj hpo
            exact hsent env ho
        | _ => cases hpo
  cases Membership.moves_of_step hstep with
  | startElection hid => exact hran rfl (fun _ hp => hp) hid .startElection
  | sendHeartbeats hid => exact hran rfl (fun _ hp => hp) hid .sendHeartbeats
  | propose hid =>
      have hall := hran rfl (fun _ hp => hp) hid .propose
      exact ⟨hall.nodes, hall.packets⟩
  | @deliver k p hp hid =>
      exact @hran { c with network := c.network.eraseIdx k } _ _ _ rfl
        (fun q hq => List.mem_of_mem_eraseIdx hq) hid (.deliver (List.mem_of_getElem? hp))
  | drop k => exact h.network fun q hq => List.mem_of_mem_eraseIdx hq
  | @duplicate k p hp =>
      refine h.network fun q hq => ?_
      rcases List.mem_append.mp hq with hq | hq
      · exact hq
      · obtain rfl := List.mem_singleton.mp hq
        exact List.mem_of_getElem? hp
  | @restart id n hid hnew =>
      refine ⟨fun v hv => ?_, h.packets⟩
      show N v (Function.update c.nodes id n v)
      by_cases hvi : v = id
      · subst hvi
        rw [Function.update_self]
        exact hrestart v hid n hnew
      · rw [Function.update_of_ne hvi]
        exact h.nodes v hv

end RaftEbpf
