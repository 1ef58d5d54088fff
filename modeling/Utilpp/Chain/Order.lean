import Utilpp.Chain.Token

/-!
# The order of a chain

A sealed chain that is neither cancelled nor throws calls the functions of its nodes one after the
other, hands every result on to the next node that declares its type, and removes its entry behind
the last node (`chain_in_order`). The chain may have any length, its nodes may be on any
workflows, and its steps may be scheduled in any order.
-/

namespace Utilpp.Chain

open Lib

variable {W Ty : Type} {Val : Ty → Type}

/-! ## Chains and their logs -/

/-- The type of the value in the context when `m` nodes are through: that of the last result. -/
def contextType (nodes : List (Node W Ty)) (m : Nat) : Option Ty :=
  (nodes.take m).foldl (fun type node => node.r.or type) none

/-- Every node that declares an input finds a value of this type in the context, so that no
`any_cast` throws and no `Input` is missing. -/
def Typed (nodes : List (Node W Ty)) : Prop :=
  ∀ i node type, nodes[i]? = some node → node.prevR = some type → contextType nodes i = some type

/-- The call number `i` and its return are the events number `2 * i` and `2 * i + 1`. -/
def InOrder (log : List (Event Val)) : Prop :=
  ∀ i, (∀ e, log[2 * i]? = some e → ∃ input, e = .started i input) ∧
    ∀ e, log[2 * i + 1]? = some e → ∃ result, e = .returned i result

/-- A node that declares the type of the result before it is called with this result. -/
def HandsOn (nodes : List (Node W Ty)) (log : List (Event Val)) : Prop :=
  ∀ i value node, log[2 * i + 1]? = some (.returned i (some value)) →
    nodes[i + 1]? = some node → node.prevR = some value.1 →
    ∀ e, log[2 * (i + 1)]? = some e → e = .started (i + 1) (some (.holds value))

/-! ## The context -/

/-- The type that a `std::any` holds. -/
def AnyValue.type : AnyValue Val → Option Ty
  | .empty => none
  | .moved type => some type
  | .holds value => some value.1

/-- The context when `m` nodes are through and no further one was posted: the result of the last
one, if it has one. -/
structure Handed (nodes : List (Node W Ty)) (log : List (Event Val)) (m : Nat)
    (context : AnyValue Val) : Prop where
  type : context.type = contextType nodes m
  value : ∀ i v, m = i + 1 → log[2 * i + 1]? = some (.returned i (some v)) → context = .holds v

theorem contextType_succ {nodes : List (Node W Ty)} {k : Nat} {node : Node W Ty}
    (h : nodes[k]? = some node) : contextType nodes (k + 1) = node.r.or (contextType nodes k) := by
  have htake : nodes.take (k + 1) = nodes.take k ++ [node] := by
    rw [List.take_add_one, h]
    rfl
  rw [contextType, htake, List.foldl_append]
  rfl

/-- An event of a longer log is one of those before or the last one. -/
theorem getElem?_concat_cases {log : List (Event Val)} {last e : Event Val} {j : Nat}
    (h : (log ++ [last])[j]? = some e) : log[j]? = some e ∨ j = log.length ∧ e = last := by
  by_cases hlt : j < log.length
  · rw [List.getElem?_append_left hlt] at h
    exact .inl h
  · have hj : j = log.length := by
      have hbound := (List.getElem?_eq_some_iff.mp h).1
      rw [List.length_append, List.length_singleton] at hbound
      omega
    rw [hj, List.getElem?_concat_length] at h
    exact .inr ⟨hj, (Option.some.inj h).symm⟩

theorem InOrder.nil : InOrder ([] : List (Event Val)) := by
  intro i
  simp

/-- The next call. -/
theorem InOrder.started {log : List (Event Val)} (h : InOrder log) {k : Nat}
    (hlength : log.length = 2 * k) (input : Option (AnyValue Val)) :
    InOrder (log ++ [.started k input]) := by
  intro i
  refine ⟨fun e he => ?_, fun e he => ?_⟩
  · rcases getElem?_concat_cases he with hbefore | ⟨hlast, rfl⟩
    · exact (h i).1 e hbefore
    · obtain rfl : i = k := by omega
      exact ⟨input, rfl⟩
  · rcases getElem?_concat_cases he with hbefore | ⟨hlast, -⟩
    · exact (h i).2 e hbefore
    · omega

/-- The next return. -/
theorem InOrder.returned {log : List (Event Val)} (h : InOrder log) {k : Nat}
    (hlength : log.length = 2 * k + 1) (result : Option (Sigma Val)) :
    InOrder (log ++ [.returned k result]) := by
  intro i
  refine ⟨fun e he => ?_, fun e he => ?_⟩
  · rcases getElem?_concat_cases he with hbefore | ⟨hlast, -⟩
    · exact (h i).1 e hbefore
    · omega
  · rcases getElem?_concat_cases he with hbefore | ⟨hlast, rfl⟩
    · exact (h i).2 e hbefore
    · obtain rfl : i = k := by omega
      exact ⟨result, rfl⟩

/-! ## The position in the chain -/

/-- The queue when the nodes before `k` are popped. -/
def remaining (nodes : List (Node W Ty)) (k : Nat) : List Nat :=
  List.range' k (nodes.length - k)

theorem remaining_cons {nodes : List (Node W Ty)} {k : Nat} (h : k < nodes.length) :
    remaining nodes k = k :: remaining nodes (k + 1) := by
  unfold remaining
  rw [show nodes.length - k = nodes.length - (k + 1) + 1 by omega, List.range'_succ]

theorem remaining_of_cons {nodes : List (Node W Ty)} {m i : Nat} {rest : List Nat}
    (h : remaining nodes m = i :: rest) : m < nodes.length ∧ i = m := by
  unfold remaining at h
  cases hlength : nodes.length - m with
  | zero => simp [hlength] at h
  | succ l =>
      rw [hlength, List.range'_succ, List.cons.injEq] at h
      exact ⟨by omega, h.1.symm⟩

theorem remaining_of_nil {nodes : List (Node W Ty)} {m : Nat} (h : remaining nodes m = []) :
    nodes.length ≤ m := by
  unfold remaining at h
  have := List.range'_eq_nil_iff.mp h
  omega

/-- The chain while one of its nodes is posted; `events` of the node's two events are recorded. -/
structure Posted (nodes : List (Node W Ty)) (s : State W Val) (τ : Token W) (events : Nat)
    (chain : TaskChain Val) : Prop where
  lt : τ.k < nodes.length
  entry : s.entry = some chain
  queue : chain.taskChainNodes = remaining nodes (if τ.popping then τ.k else τ.k + 1)
  length : s.log.length = 2 * τ.k + events

/-- The input of node `k` when its task is pending. -/
structure Ready (nodes : List (Node W Ty)) (log : List (Event Val)) (k : Nat)
    (input : AnyValue Val) : Prop where
  present : ∀ node type, nodes[k]? = some node → node.prevR = some type → input ≠ .empty
  value : ∀ i v node, k = i + 1 → log[2 * i + 1]? = some (.returned i (some v)) →
    nodes[k]? = some node → node.prevR = some v.1 → input = .holds v

/-- Where the chain is, by the stage of its token. -/
def Position (nodes : List (Node W Ty)) (s : State W Val) (τ : Token W) : Prop :=
  match τ.stage with
  | .completing => ∃ m chain, s.entry = some chain ∧ m ≤ nodes.length ∧
      chain.taskChainNodes = remaining nodes m ∧ s.log.length = 2 * m ∧
      Handed nodes s.log m chain.dataContext
  | .waiting => ∃ chain, Posted nodes s τ 0 chain ∧
      chain.dataContext.type = contextType nodes τ.k ∧ Ready nodes s.log τ.k (s.input τ.k)
  | .running => ∃ chain, Posted nodes s τ 1 chain ∧
      chain.dataContext.type = contextType nodes τ.k
  | .returned => ∃ chain, Posted nodes s τ 2 chain ∧
      chain.dataContext.type = contextType nodes τ.k ∧
      s.log[2 * τ.k + 1]? = some (.returned τ.k (s.ret τ.k)) ∧
      ∀ node, nodes[τ.k]? = some node → (s.ret τ.k).map Sigma.fst = node.r
  | .extracted | .finished => ∃ chain, Posted nodes s τ 2 chain ∧
      Handed nodes s.log (τ.k + 1) chain.dataContext
  | .stopped => s.entry = none ∧ τ.popping = false ∧ s.log.length = 2 * nodes.length

/-- What holds in every state of a chain that is neither cancelled nor throws. -/
structure Sound (nodes : List (Node W Ty)) (s : State W Val) (τ : Token W) : Prop where
  nodes_eq : s.nodes = nodes
  order : InOrder s.log
  handsOn : HandsOn nodes s.log
  position : Position nodes s τ

/-- A longer record hands on as before when its new event is not a call. -/
theorem HandsOn.append {nodes : List (Node W Ty)} {log : List (Event Val)} (h : HandsOn nodes log)
    {event : Event Val}
    (hnew : ∀ i value node, log[2 * i + 1]? = some (.returned i (some value)) →
      nodes[i + 1]? = some node → node.prevR = some value.1 → 2 * (i + 1) = log.length →
      event = .started (i + 1) (some (.holds value))) :
    HandsOn nodes (log ++ [event]) := by
  intro i value node hreturn hnode hprev e he
  have hlt := (List.getElem?_eq_some_iff.mp he).1
  simp only [List.length_append, List.length_singleton] at hlt
  have hi : 2 * i + 1 < log.length := by omega
  rw [List.getElem?_append_left hi] at hreturn
  rcases getElem?_concat_cases he with hbefore | ⟨hlast, rfl⟩
  · exact h i value node hreturn hnode hprev e hbefore
  · exact hnew i value node hreturn hnode hprev hlast

/-- `ExtractResultToContext` hands the result of node `k` on. -/
theorem extract_handed {nodes : List (Node W Ty)} {s : State W Val} {k : Nat}
    {chain : TaskChain Val} {node : Node W Ty} (hentry : s.entry = some chain)
    (hnode : nodes[k]? = some node) (hcontext : chain.dataContext.type = contextType nodes k)
    (hret : s.log[2 * k + 1]? = some (.returned k (s.ret k)))
    (htype : (s.ret k).map Sigma.fst = node.r) :
    (s.extractResultToContext k).nodes = s.nodes ∧ (s.extractResultToContext k).log = s.log ∧
      ∃ context, (s.extractResultToContext k).entry = some { chain with dataContext := context } ∧
        Handed nodes s.log (k + 1) context := by
  unfold State.extractResultToContext
  rw [hentry]
  cases hvalue : s.ret k with
  | none =>
      rw [hvalue, Option.map_none] at htype
      refine ⟨rfl, rfl, chain.dataContext, hentry, ?_, ?_⟩
      · rw [contextType_succ hnode, ← htype, hcontext]
        rfl
      · intro i v hi hreturned
        obtain rfl : k = i := by omega
        rw [hret, hvalue] at hreturned
        cases hreturned
  | some value =>
      rw [hvalue, Option.map_some] at htype
      refine ⟨rfl, rfl, .holds value, rfl, ?_, ?_⟩
      · rw [contextType_succ hnode, ← htype]
        rfl
      · intro i v hi hreturned
        obtain rfl : k = i := by omega
        rw [hret, hvalue] at hreturned
        cases hreturned
        rfl

variable [DecidableEq Ty]

/-- The input that `Post` of node `m` takes out of the context, and the context it leaves. -/
theorem inject_ready {nodes : List (Node W Ty)} {s : State W Val} {m : Nat}
    {chain : TaskChain Val} {node : Node W Ty}
    (hentry : s.entry = some chain) (htyped : Typed nodes) (hnode : nodes[m]? = some node)
    (hcontext : Handed nodes s.log m chain.dataContext) :
    ∃ injected, s.inject chain m node = some injected ∧ injected.nodes = s.nodes ∧
      injected.log = s.log ∧ Ready nodes s.log m (injected.input m) ∧
      ∃ context, injected.entry = some { chain with dataContext := context } ∧
        context.type = contextType nodes m := by
  have hsame : ∀ {node'}, nodes[m]? = some node' → node' = node := by
    intro node' hnode'
    rw [hnode, Option.some.injEq] at hnode'
    exact hnode'.symm
  cases hprev : node.prevR with
  | none =>
      refine ⟨s, by simp only [State.inject, hprev], rfl, rfl, ⟨?_, ?_⟩, chain.dataContext, hentry,
        hcontext.type⟩
      · intro node' type hnode' hprev'
        rw [hsame hnode', hprev] at hprev'
        cases hprev'
      · intro i v node' _ _ hnode' hprev'
        rw [hsame hnode', hprev] at hprev'
        cases hprev'
  | some type =>
      have htype : chain.dataContext.type = some type :=
        hcontext.type.trans (htyped m node type hnode hprev)
      cases hvalue : chain.dataContext with
      | empty => simp [hvalue, AnyValue.type] at htype
      | moved t =>
          have ht : t = type := by simpa [hvalue, AnyValue.type] using htype
          refine ⟨{ s with
              entry := some { chain with dataContext := .moved t }
              input := Function.update s.input m (.moved t) }, ?_, rfl, rfl, ⟨?_, ?_⟩, .moved t,
            rfl, ?_⟩
          · simp [State.inject, hprev, injectInputFromContext, hvalue, ht]
          · intro _ _ _ _
            simp
          · intro i v node' hm hreturned
            rw [hcontext.value i v hm hreturned] at hvalue
            cases hvalue
          · rw [← hcontext.type, hvalue]
      | holds value =>
          have ht : value.1 = type := by simpa [hvalue, AnyValue.type] using htype
          refine ⟨{ s with
              entry := some { chain with dataContext := .moved value.1 }
              input := Function.update s.input m (.holds value) }, ?_, rfl, rfl, ⟨?_, ?_⟩,
            .moved value.1, rfl, ?_⟩
          · simp [State.inject, hprev, injectInputFromContext, hvalue, ht]
          · intro _ _ _ _
            simp
          · intro i v node' hm hreturned _ _
            rw [hcontext.value i v hm hreturned] at hvalue
            simpa [Function.update_self] using hvalue.symm
          · rw [← hcontext.type, hvalue]
            rfl

variable [DecidableEq W]

omit [DecidableEq Ty] in
/-- The `pop` behind `Post`. -/
theorem Posted.pop {nodes : List (Node W Ty)} {s : State W Val} {τ : Token W} {events : Nat}
    {chain : TaskChain Val} (h : Posted nodes s τ events chain) (hpopping : τ.popping = true)
    (main : W) :
    let popped := { chain with taskChainNodes := chain.taskChainNodes.tail }
    s.popChainNode main = { s with entry := some popped }.goTo main .idle ∧
      Posted nodes (s.popChainNode main) { τ with popping := false } events popped := by
  intro popped
  have hpop : s.popChainNode main = { s with entry := some popped }.goTo main .idle := by
    simp [State.popChainNode, h.entry, popped]
  have hqueue := h.queue
  rw [if_pos hpopping, remaining_cons h.lt] at hqueue
  refine ⟨hpop, h.lt, by rw [hpop]; rfl, ?_, ?_⟩
  · show chain.taskChainNodes.tail = _
    rw [hqueue]
    rfl
  · rw [hpop]
    exact h.length

namespace Sound

variable {nodes : List (Node W Ty)} {main : W} {s s' : State W Val} {τ τ' : Token W}

omit [DecidableEq Ty] in
/-- A node's function is called with what the node before it returned. -/
theorem start (h : Sound nodes s τ) {node : Node W Ty} {input : Option (AnyValue Val)}
    (hstage : τ.stage = .waiting) (hnode : s.nodes[τ.k]? = some node)
    (hinput : s.argument τ.k node = some input) :
    Sound nodes (({ s with pending := [] }.goTo τ.home (.running τ.k)).record
      (.started τ.k input)) { τ with stage := .running } := by
  have hposition := h.position
  have hnodes := h.nodes_eq
  simp only [Position, hstage] at hposition
  obtain ⟨chain, hposted, hcontext, hready⟩ := hposition
  rw [hnodes] at hnode
  refine ⟨hnodes, h.order.started hposted.length input, h.handsOn.append ?_, ?_⟩
  · intro i value node' hreturned hnode' hprev hlength
    have hk : τ.k = i + 1 := by
      have := hposted.length
      omega
    rw [← hk] at hnode' ⊢
    have hinput' := hready.value i value node' hk hreturned hnode' hprev
    rw [hnode, Option.some.injEq] at hnode'
    subst hnode'
    simp only [State.argument, hprev, hinput', Option.some.injEq] at hinput
    rw [← hinput]
  · refine ⟨chain, ⟨hposted.lt, hposted.entry, hposted.queue, ?_⟩, hcontext⟩
    simp [State.record, State.goTo, hposted.length]

omit [DecidableEq Ty] [DecidableEq W] in
/-- While a node completes, the nodes before one place have returned, and the others are left. -/
theorem completing (h : Sound nodes s τ) {chain : TaskChain Val} (hstage : τ.stage = .completing)
    (hentry : s.entry = some chain) :
    ∃ m, m ≤ nodes.length ∧ chain.taskChainNodes = remaining nodes m ∧ s.log.length = 2 * m ∧
      Handed nodes s.log m chain.dataContext := by
  have hposition := h.position
  simp only [Position, hstage] at hposition
  obtain ⟨m, chain', hentry', hrest⟩ := hposition
  rw [hentry, Option.some.injEq] at hentry'
  exact ⟨m, hentry' ▸ hrest⟩

omit [DecidableEq Ty] [DecidableEq W] in
/-- The node that is posted next is the first that has not returned. -/
theorem next (h : Sound nodes s τ) {chain : TaskChain Val} {i : Nat} {rest : List Nat}
    (hstage : τ.stage = .completing) (hentry : s.entry = some chain)
    (hqueue : chain.taskChainNodes = i :: rest) :
    i < nodes.length ∧ chain.taskChainNodes = remaining nodes i ∧ s.log.length = 2 * i ∧
      Handed nodes s.log i chain.dataContext := by
  obtain ⟨m, -, hqueue', hlength, hhanded⟩ := h.completing hstage hentry
  obtain ⟨hlt, rfl⟩ := remaining_of_cons (hqueue'.symm.trans hqueue)
  exact ⟨hlt, hqueue', hlength, hhanded⟩

/-- The next node is posted. -/
theorem post (h : Sound nodes s τ) (htyped : Typed nodes) {chain : TaskChain Val} {i : Nat}
    {rest : List Nat} {node : Node W Ty} {injected : State W Val} (hstage : τ.stage = .completing)
    (hentry : s.entry = some chain) (hqueue : chain.taskChainNodes = i :: rest)
    (hnode : s.nodes[i]? = some node) (hinject : s.inject chain i node = some injected) :
    Sound nodes ((injected.addTask node.workflow (.node i)).goTo main (.posted i))
      ⟨i, node.workflow, .waiting, true⟩ := by
  have hnodes := h.nodes_eq
  obtain ⟨hlt, hqueue', hlength, hhanded⟩ := h.next hstage hentry hqueue
  rw [hnodes] at hnode
  obtain ⟨injected', hinject', hnodes', hlog, hready, context, hentry', hcontext⟩ :=
    inject_ready hentry htyped hnode hhanded
  rw [hinject, Option.some.injEq] at hinject'
  subst hinject'
  refine ⟨hnodes'.trans hnodes, hlog ▸ h.order, hlog ▸ h.handsOn, _,
    ⟨hlt, hentry', hqueue', ?_⟩, hcontext, ?_⟩
  · exact (congrArg List.length hlog).trans hlength
  · show Ready nodes injected.log i (injected.input i)
    rw [hlog]
    exact hready

omit [DecidableEq Ty] in
/-- The main thread returns from the call that posted the node. -/
theorem pop (h : Sound nodes s τ) (hat : At main s τ) (hpopping : τ.popping = true) :
    Sound nodes (s.popChainNode main) { τ with popping := false } := by
  have hposition := h.position
  have hnodes := h.nodes_eq
  have hcases : ∃ events chain, Posted nodes s τ events chain := by
    cases hstage : τ.stage <;> simp only [Position, hstage] at hposition
    case completing => exact absurd hstage (hat.apart hpopping).1
    case stopped => simp [hpopping] at hposition
    all_goals
      obtain ⟨chain, hposted, -⟩ := hposition
      exact ⟨_, chain, hposted⟩
  obtain ⟨events, chain, hposted⟩ := hcases
  obtain ⟨hpop, -⟩ := hposted.pop hpopping main
  refine ⟨?_, ?_, ?_, ?_⟩
  · rw [hpop]
    exact hnodes
  · rw [hpop]
    exact h.order
  · rw [hpop]
    exact h.handsOn
  · cases hstage : τ.stage <;> simp only [Position, hstage] at hposition ⊢
    case completing => exact absurd hstage (hat.apart hpopping).1
    case stopped => simp [hpopping] at hposition
    all_goals
      obtain ⟨chain', hposted', hrest⟩ := hposition
      obtain ⟨hpop', hposted''⟩ := hposted'.pop hpopping main
      rw [hstage] at hposted''
      refine ⟨_, hposted'', ?_⟩
      try rw [hpop']
      exact hrest

/-- One move of a chain that is neither cancelled nor throws. -/
theorem move {l : Label W Val} (h : Sound nodes s τ) (htyped : Typed nodes)
    (hl : l.scheduled = true) (hat : At main s τ) (hmove : Move main s τ l s' τ') :
    Sound nodes s' τ' := by
  have hposition := h.position
  have hnodes := h.nodes_eq
  cases hmove with
  | throws hstage => cases hl
  | cancel _ _ _ => cases hl
  | start node input hstage hmain hnode hinput => exact h.start hstage hnode hinput
  | returns node result hstage hnode hresult =>
      simp only [Position, hstage] at hposition
      obtain ⟨chain, hposted, hcontext⟩ := hposition
      rw [hnodes] at hnode
      have hlength := hposted.length
      refine ⟨hnodes, h.order.returned hlength result, h.handsOn.append ?_, ?_⟩
      · intro i value node' _ _ _ heq
        omega
      · refine ⟨chain, ⟨hposted.lt, hposted.entry, hposted.queue, ?_⟩, hcontext, ?_, ?_⟩
        · simp [State.record, State.goTo, hlength]
        · simp [State.record, State.goTo, ← hlength]
        · intro node' hnode'
          rw [hnode, Option.some.injEq] at hnode'
          simp [State.record, State.goTo, hresult, hnode']
  | extract hstage =>
      simp only [Position, hstage] at hposition
      obtain ⟨chain, hposted, hcontext, hret, htype⟩ := hposition
      obtain ⟨node, hnode⟩ : ∃ node, nodes[τ.k]? = some node :=
        ⟨_, List.getElem?_eq_getElem hposted.lt⟩
      obtain ⟨hnodes', hlog, context, hentry, hhanded⟩ :=
        extract_handed hposted.entry hnode hcontext hret (htype node hnode)
      refine ⟨hnodes'.trans hnodes, hlog ▸ h.order, hlog ▸ h.handsOn, _,
        ⟨hposted.lt, hentry, hposted.queue, ?_⟩, hlog ▸ hhanded⟩
      exact (congrArg List.length hlog).trans hposted.length
  | call hstage _ hpopping | complete hstage hpopping =>
      simp only [Position, hstage] at hposition
      obtain ⟨chain, hposted, hhanded⟩ := hposition
      have hqueue := hposted.queue
      rw [if_neg (by simp [hpopping])] at hqueue
      exact ⟨hnodes, h.order, h.handsOn, τ.k + 1, chain, hposted.entry, hposted.lt, hqueue,
        hposted.length, hhanded⟩
  | add hstage hmain =>
      simp only [Position, hstage] at hposition
      obtain ⟨chain, hposted, hhanded⟩ := hposition
      exact ⟨hnodes, h.order, h.handsOn, chain,
        ⟨hposted.lt, hposted.entry, hposted.queue, hposted.length⟩, hhanded⟩
  | vanish hstage hpopping hentry =>
      simp only [Position, hstage] at hposition
      obtain ⟨m, chain, hentry', -⟩ := hposition
      rw [hentry] at hentry'
      cases hentry'
  | erase chain hstage hpopping hentry hqueue =>
      obtain ⟨m, hm, hqueue', hlength, -⟩ := h.completing hstage hentry
      have hle := remaining_of_nil (hqueue'.symm.trans hqueue)
      refine ⟨hnodes, h.order, h.handsOn, rfl, hpopping, ?_⟩
      rw [← Nat.le_antisymm hm hle]
      exact hlength
  | refuse chain i rest node hstage hpopping hentry hqueue hnode hinject =>
      obtain ⟨-, -, -, hhanded⟩ := h.next hstage hentry hqueue
      rw [hnodes] at hnode
      obtain ⟨injected, hinject', -⟩ := inject_ready hentry htyped hnode hhanded
      rw [hinject] at hinject'
      cases hinject'
  | post chain i rest node injected hstage hpopping hentry hqueue hnode hinject =>
      exact h.post htyped hstage hentry hqueue hnode hinject
  | pop hpopping => exact h.pop hat hpopping

end Sound

/-! ## Every schedule ends -/

/-- Counts the steps of a chain: at most seven for each node and one more. -/
def rank (s : State W Val) (τ : Token W) : Nat :=
  let popped := if τ.popping then 0 else 1
  match τ.stage with
  | .completing => 7 * (s.log.length / 2)
  | .waiting => 7 * τ.k + 1 + popped
  | .running => 7 * τ.k + 2 + popped
  | .returned => 7 * τ.k + 3 + popped
  | .extracted => 7 * τ.k + 4 + popped
  | .finished => 7 * τ.k + 5 + popped
  | .stopped => 7 * (s.log.length / 2) + 1

namespace Sound

variable {nodes : List (Node W Ty)} {main : W} {s s' : State W Val} {τ τ' : Token W}

omit [DecidableEq Ty] [DecidableEq W] in
theorem rank_le (h : Sound nodes s τ) : rank s τ ≤ 7 * nodes.length + 1 := by
  have hposition := h.position
  unfold rank
  cases hstage : τ.stage <;> simp only [Position, hstage] at hposition ⊢
  case completing =>
    obtain ⟨m, chain, -, hm, -, hlength, -⟩ := hposition
    omega
  case stopped => omega
  all_goals
    obtain ⟨chain, hposted, -⟩ := hposition
    have := hposted.lt
    split <;> omega

omit [DecidableEq Ty] [DecidableEq W] in
theorem length_le (h : Sound nodes s τ) : s.log.length ≤ 2 * nodes.length := by
  have hposition := h.position
  cases hstage : τ.stage <;> simp only [Position, hstage] at hposition
  case completing =>
    obtain ⟨m, chain, -, hm, -, hlength, -⟩ := hposition
    omega
  case stopped => omega
  all_goals
    obtain ⟨chain, hposted, -⟩ := hposition
    have hlt := hposted.lt
    have hlength := hposted.length
    omega

/-- Every move brings the chain further. -/
theorem rank_lt {l : Label W Val} (h : Sound nodes s τ) (hat : At main s τ)
    (hl : l.scheduled = true) (hmove : Move main s τ l s' τ') : rank s τ < rank s' τ' := by
  have hposition := h.position
  cases hmove with
  | throws hstage => cases hl
  | cancel _ _ _ => cases hl
  | start _ _ hstage | returns _ _ hstage | extract hstage | add hstage =>
      simp only [rank, hstage]
      omega
  | call hstage _ hpopping | complete hstage hpopping =>
      simp only [Position, hstage] at hposition
      obtain ⟨chain, hposted, -⟩ := hposition
      have hlength := hposted.length
      simp only [rank, hstage, hpopping, State.goTo, hlength]
      simp
      omega
  | vanish hstage | erase _ hstage =>
      simp only [rank, hstage, State.goTo]
      omega
  | refuse chain i rest node hstage hpopping hentry hqueue hnode hinject =>
      simp only [rank, hstage, State.goTo, State.record, List.length_append, List.length_singleton]
      omega
  | post chain i rest node injected hstage hpopping hentry hqueue hnode hinject =>
      obtain ⟨-, -, hlength, -⟩ := h.next hstage hentry hqueue
      simp only [rank, hstage, hlength]
      simp
  | pop hpopping =>
      have hcompleting := (hat.apart hpopping).1
      cases hstage : τ.stage <;> simp only [rank, hstage, hpopping, Position] at hposition ⊢
      case completing => exact absurd hstage hcompleting
      case stopped => simp at hposition
      all_goals simp

/-- The main thread pops a node that was started. -/
theorem step_popping (hat : At main s τ) (hpopping : τ.popping = true) :
    s.step main (.go main) ≠ none := by
  have hmain : s.threads main = .posted τ.k := by
    rw [hat.threads_eq]
    by_cases hhome : main = τ.home ∧ τ.stage.active = true
    · exact absurd hhome.1.symm ((hat.apart hpopping).2 hhome.2)
    · simp [Token.threads, Token.mainPoint, hhome, hpopping]
  intro hstuck
  simp [State.step, State.go, hmain] at hstuck

omit [DecidableEq W] [DecidableEq Ty] in
/-- A node has its argument when the input that it declares is there. -/
theorem exists_argument {k : Nat} {node : Node W Ty}
    (hpresent : ∀ type, node.prevR = some type → s.input k ≠ .empty) :
    ∃ input, State.argument { s with pending := [] } k node = some input := by
  unfold State.argument
  cases hprev : node.prevR with
  | none => exact ⟨_, rfl⟩
  | some type =>
      cases hinput : s.input k with
      | empty => exact absurd hinput (hpresent type hprev)
      | moved t => exact ⟨_, rfl⟩
      | holds v => exact ⟨_, rfl⟩

/-- A chain that is not over can go on. -/
theorem enabled [∀ type, Inhabited (Val type)] (h : Sound nodes s τ) (hat : At main s τ)
    (htyped : Typed nodes) (hstuck : ∀ l : Label W Val, l.scheduled = true → s.step main l = none) :
    τ.stage = .stopped := by
  have hposition := h.position
  -- the main thread pops first
  have hpopping : τ.popping = false := by
    by_contra hpopping
    rw [Bool.not_eq_false] at hpopping
    exact step_popping hat hpopping (hstuck (.go main) rfl)
  have hhome : τ.stage.active = true → s.threads τ.home = τ.stage.point τ.k := by
    intro hactive
    rw [hat.threads_eq, threads_home hactive]
  have hidle : τ.stage.active = false → τ.stage ≠ .completing → ∀ w, s.threads w = .idle := by
    intro hactive hcompleting w
    rw [hat.threads_eq]
    simp [Token.threads, Token.mainPoint, hactive, hcompleting, hpopping]
  have hpending := hat.pending
  cases hstage : τ.stage with
  | stopped => rfl
  | waiting =>
      simp only [Position, hstage] at hposition
      obtain ⟨chain, hposted, -, hready⟩ := hposition
      obtain ⟨node, hnode⟩ : ∃ node, nodes[τ.k]? = some node :=
        ⟨_, List.getElem?_eq_getElem hposted.lt⟩
      have hpoint := hidle (by simp [hstage]) (by simp [hstage]) τ.home
      obtain ⟨input, hinput⟩ :=
        exists_argument fun type hprev => hready.present node type hnode hprev
      have := hstuck (.start 0) rfl
      simp only [Token.pending, hstage] at hpending
      rw [← h.nodes_eq] at hnode
      simp [State.step, hpending, hpoint, State.start, hnode, hinput] at this
  | running =>
      simp only [Position, hstage] at hposition
      obtain ⟨chain, hposted, -⟩ := hposition
      obtain ⟨node, hnode⟩ : ∃ node, nodes[τ.k]? = some node :=
        ⟨_, List.getElem?_eq_getElem hposted.lt⟩
      have hpoint := hhome (by simp [hstage])
      have hresult : (node.r.map fun type => (⟨type, default⟩ : Sigma Val)).map Sigma.fst =
          node.r := by
        cases node.r <;> rfl
      have := hstuck (.returns τ.home (node.r.map fun type => ⟨type, default⟩)) rfl
      simp only [State.step, hpoint, hstage, Stage.point, h.nodes_eq, hnode, if_pos hresult] at this
      cases this
  | returned =>
      have hpoint := hhome (by simp [hstage])
      have := hstuck (.go τ.home) rfl
      simp [State.step, State.go, hpoint, hstage] at this
  | extracted =>
      have hpoint := hhome (by simp [hstage])
      have := hstuck (.go τ.home) rfl
      simp only [State.step, State.go, hpoint, hstage, Stage.point] at this
      split at this <;> cases this
  | finished =>
      have hpoint := hidle (by simp [hstage]) (by simp [hstage]) main
      have := hstuck (.start 0) rfl
      simp only [Token.pending, hstage] at hpending
      simp [State.step, hpending, hpoint, State.start] at this
  | completing =>
      simp only [Position, hstage] at hposition
      obtain ⟨m, chain, hentry, hm, hqueue, hlength, hhanded⟩ := hposition
      have hpoint : s.threads main = .completing := by
        rw [hat.threads_eq]
        simp [Token.threads, Token.mainPoint, hstage, hpopping]
      have := hstuck (.go main) rfl
      simp only [State.step, State.go, hpoint, State.postChainNode, hentry] at this
      cases hnext : chain.taskChainNodes with
      | nil => simp [hnext] at this
      | cons i rest =>
          rw [hqueue] at hnext
          obtain ⟨hlt, rfl⟩ := remaining_of_cons hnext
          have hnode := List.getElem?_eq_getElem hlt
          obtain ⟨injected, hinject, -⟩ := inject_ready hentry htyped hnode hhanded
          simp [hqueue, hnext, h.nodes_eq, hnode, hinject] at this

/-- Every state that a schedule reaches, and the number of its steps. -/
theorem run {ls : List (Label W Val)} (h : Sound nodes s τ) (hat : At main s τ)
    (htyped : Typed nodes) (hls : ∀ l ∈ ls, l.scheduled = true)
    (hrun : exec (State.step main) s ls = some s') :
    ∃ τ', At main s' τ' ∧ Sound nodes s' τ' ∧ rank s τ + ls.length ≤ rank s' τ' := by
  induction ls generalizing s τ with
  | nil =>
      cases hrun
      exact ⟨τ, hat, h, Nat.le_refl _⟩
  | cons l ls ih =>
      obtain ⟨t, hstep, hrest⟩ := exec_cons_eq_some.mp hrun
      have hl := hls l List.mem_cons_self
      have hrunning : l.running = true := by cases l <;> first | rfl | cases hl
      obtain ⟨τ₁, hmove, hat₁⟩ := hat.step hrunning hstep
      have h₁ := h.move htyped hl hat hmove
      have hlt := h.rank_lt hat hl hmove
      obtain ⟨τ₂, hat₂, h₂, hle⟩ :=
        ih h₁ hat₁ (fun l hl => hls l (List.mem_cons_of_mem _ hl)) hrest
      refine ⟨τ₂, hat₂, h₂, ?_⟩
      rw [List.length_cons]
      omega

end Sound

omit [DecidableEq Ty] in
/-- A chain that was just sealed. -/
theorem sound_sealedChain (main : W) {nodes : List (Node W Ty)} (hnodes : nodes ≠ []) :
    Sound nodes (sealedChain Val main nodes) ⟨0, main, .completing, false⟩ := by
  have hsealed : sealedChain Val main nodes = (builtChain Val nodes).goTo main .completing := by
    simp [sealedChain, State.sealChain, builtChain, hnodes]
  rw [hsealed]
  refine ⟨rfl, InOrder.nil, ?_, 0, _, rfl, Nat.zero_le _, List.range_eq_range', rfl, rfl, ?_⟩
  · intro i value node hreturned
    simp [State.goTo, builtChain, newTaskChain] at hreturned
  · intro i v hi
    omega

end Utilpp.Chain
