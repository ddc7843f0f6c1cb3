import MemoryFlow.Clobber.Refine
import MemoryFlow.Proofs.Clobber.Walker

/-! # What uses observe

A use observes the clobber on the stack of its defining access, or memory on entry if it reads what
is never written. The searching walker answers just that (`Linked.clobberOf_observes`). Under most
oracles uses of one footprint are clobbered by the same definitions; then what one of them has found
holds for the others (`Uniform.isClobber`).
-/

namespace MemoryFlow

/-- Whether the oracle answers all that is asked of it about the instructions of a procedure. -/
structure Oracle.Total (o : Oracle) (p : Procedure) : Prop where
  classifies : o.Classifies p
  constant : ∀ inst ∈ p.layout.allInsts, ∃ b, Graph.readsConstant p o inst = .ok b
  answers : ∀ inst ∈ p.layout.allInsts, ∀ q, Query.ofInst p inst = .ok q → o.Answers p q

instance (o : Oracle) (p : Procedure) : Decidable (o.Total p) :=
  decidable_of_iff (o.Classifies p ∧
    (∀ inst ∈ p.layout.allInsts, ∃ b, Graph.readsConstant p o inst = .ok b) ∧
      ∀ inst ∈ p.layout.allInsts, ∀ q ∈ (Query.ofInst p inst).toOption, o.Answers p q) <| by
    have told : ∀ (x : Except Fault Query) q, q ∈ x.toOption ↔ x = .ok q := by
      intro x q
      cases x <;> simp [Except.toOption]
    simp only [told]
    exact ⟨fun ⟨classifies, constant, answers⟩ => ⟨classifies, constant, answers⟩,
      fun ⟨classifies, constant, answers⟩ => ⟨classifies, constant, answers⟩⟩

namespace Graph

variable {g g' : Graph} {p : Procedure} {o : Oracle} {q q' : Query} {entry : Block}
  {a c c' d : Access} {n : Node} {l front : List Access} {inst inst' : Inst} {f : Footprint}

theorem isClobber_cons : g.IsClobber p o q (a :: l) c ↔
    ¬g.Passable p o q a ∧ c = a ∨ g.Passable p o q a ∧ g.IsClobber p o q l c := by
  constructor
  · rintro ⟨before, after, whole, passed, stops⟩
    cases before with
    | nil =>
        cases whole
        exact .inl ⟨stops, rfl⟩
    | cons x before =>
        rw [List.cons_append] at whole
        obtain ⟨rfl, rfl⟩ := List.cons_eq_cons.mp whole
        obtain ⟨first, rest⟩ := List.forall_mem_cons.mp passed
        exact .inr ⟨first, before, after, rfl, rest, stops⟩
  · rintro (⟨stops, rfl⟩ | ⟨passes, clobber⟩)
    · exact ⟨[], l, rfl, by simp, stops⟩
    · have first : ∀ x ∈ [a], g.Passable p o q x := by simpa using passes
      exact clobber.append first

namespace IsClobber

theorem unique (first : g.IsClobber p o q l c) (second : g.IsClobber p o q l c') : c = c' := by
  induction l with
  | nil => exact absurd first.mem (by simp)
  | cons a l ih =>
      rcases isClobber_cons.mp first with ⟨stops, rfl⟩ | ⟨passes, first⟩ <;>
        rcases isClobber_cons.mp second with ⟨stops', rfl⟩ | ⟨passes', second⟩
      · rfl
      · exact absurd passes' stops
      · exact absurd passes stops'
      · exact ih first second

theorem of_append (passable : ∀ x ∈ front, g.Passable p o q x)
    (clobber : g.IsClobber p o q (front ++ l) c) : g.IsClobber p o q l c := by
  induction front with
  | nil => exact clobber
  | cons x front ih =>
      obtain ⟨first, rest⟩ := List.forall_mem_cons.mp passable
      rcases isClobber_cons.mp clobber with ⟨stops, _⟩ | ⟨_, clobber⟩
      · exact absurd first stops
      · exact ih rest clobber

end IsClobber

namespace Agrees

variable (agrees : g.Agrees g')
include agrees

theorem clobbers (found : g.node? a = some n) : g'.clobbers p o a q = g.clobbers p o a q := by
  obtain ⟨m, found', alike⟩ := agrees.read found
  rw [Graph.clobbers, Graph.clobbers, node_eq found, node_eq found', ok_bind, ok_bind, alike.inst?]

theorem kills (kills : g.Kills p o q a) : g'.Kills p o q a := by
  obtain ⟨n, found, isDefinition, clobbers⟩ := kills
  obtain ⟨m, found', alike⟩ := agrees.read found
  exact ⟨m, found', alike.isDefinition.trans isDefinition, (agrees.clobbers found).trans clobbers⟩

theorem silent (silent : g.Silent p o q a) : g'.Silent p o q a := by
  obtain ⟨n, found, isDefinition, clobbers⟩ := silent
  obtain ⟨m, found', alike⟩ := agrees.read found
  exact ⟨m, found', alike.isDefinition.trans isDefinition, (agrees.clobbers found).trans clobbers⟩

theorem passable (kills : ∀ d, g'.Kills p o q' d → g.Kills p o q d)
    (silent : ∀ d, g.Silent p o q d → g'.Silent p o q' d) (passes : g.Passable p o q a) :
    g'.Passable p o q' a := by
  refine passes.imp (silent a) fun ⟨n, found, isPhi, clean⟩ => ?_
  obtain ⟨m, found', alike⟩ := agrees.read found
  refine ⟨m, found', alike.isPhi.trans isPhi, fun d route up missed killed => ?_⟩
  rw [alike.block, agrees.reachIn] at missed
  exact clean d route (up.mono fun _ _ => agrees.symm.above) missed (kills d killed)

theorem isClobber (kills : ∀ d, g'.Kills p o q' d ↔ g.Kills p o q d)
    (silent : ∀ d, g'.Silent p o q' d ↔ g.Silent p o q d) (clobber : g.IsClobber p o q l c) :
    g'.IsClobber p o q' l c := by
  obtain ⟨before, after, whole, passed, stops⟩ := clobber
  refine ⟨before, after, whole, fun a member => ?_, fun passes => stops ?_⟩
  · exact agrees.passable (fun d => (kills d).mp) (fun d => (silent d).mpr) (passed a member)
  · exact agrees.symm.passable (fun d => (kills d).mpr) (fun d => (silent d).mp) passes

theorem same_isClobber (clobber : g.IsClobber p o q l c) : g'.IsClobber p o q l c :=
  agrees.isClobber (fun _ => ⟨agrees.symm.kills, agrees.kills⟩)
    (fun _ => ⟨agrees.symm.silent, agrees.silent⟩) clobber

end Agrees

def Reads (g : Graph) (p : Procedure) (a : Access) (inst : Inst) (f : Footprint) : Prop :=
  ∃ n op, g.node? a = some n ∧ n.isUse = true ∧ n.inst? = some inst ∧ p.op inst = .ok op ∧
    Footprint.ofOp? op = some f

/-- Whether uses of one footprint are clobbered by the same definitions. -/
def Uniform (g : Graph) (p : Procedure) (o : Oracle) : Prop :=
  ∀ f a a' inst inst', g.Reads p a inst f → g.Reads p a' inst' f →
    ∀ d, g.Kills p o (f.query inst) d ↔ g.Kills p o (f.query inst') d

def Observes (g : Graph) (p : Procedure) (o : Oracle) (a c : Access) : Prop :=
  ∃ inst f, g.Reads p a inst f ∧
    (readsConstant p o inst = .ok true ∧ c = .liveOnEntry ∨
      readsConstant p o inst = .ok false ∧ ∃ n start l, g.node? a = some n ∧
        n.defining? = some start ∧ g.Stack (start :: l) ∧
        g.IsClobber p o (f.query inst) (start :: l) c)

theorem ofInst_eq {op : Op} (known : p.op inst = .ok op) : Query.ofInst p inst =
    .ok (if op.isCall then .call inst else .access inst (Location.ofOp? op)) := by
  rw [Query.ofInst, known]
  rfl

theorem asks_footprint {op : Op} (known : p.op inst = .ok op)
    (footprint : Footprint.ofOp? op = some f) :
    Query.ofInst p inst = .ok (f.query inst) ∧ op.isFence = false := by
  rw [ofInst_eq known]
  cases op <;> cases footprint <;> exact ⟨rfl, rfl⟩

theorem footprint_of_readsConstant {op : Op} (known : p.op inst = .ok op)
    (constant : readsConstant p o inst = .ok true) : ∃ f, Footprint.ofOp? op = some f := by
  rw [readsConstant, known, ok_bind] at constant
  cases op with
  | load => exact ⟨_, rfl⟩
  | _ => cases constant

theorem footprint_of_reads {op : Op} (kind : op.isLoad = true ∨ op.isCall = true) :
    ∃ f, Footprint.ofOp? op = some f := by
  cases op with
  | load | call | intrinsic => exact ⟨_, rfl⟩
  | _ => simp [Op.isLoad, Op.isCall] at kind

theorem Shaped.placed_inst (h : g.Shaped p entry) (found : g.node? a = some n)
    (hasInst : n.inst? = some inst) : inst ∈ p.layout.allInsts :=
  h.orderly.mem_allInsts (h.placed a n.outline inst (outline?_eq found) (by simpa using hasInst))

theorem Agrees.reads (agrees : g.Agrees g') (reads : g.Reads p a inst f) : g'.Reads p a inst f := by
  obtain ⟨n, op, found, isUse, hasInst, known⟩ := reads
  obtain ⟨m, found', alike⟩ := agrees.read found
  exact ⟨m, op, found', alike.isUse.trans isUse, alike.inst?.trans hasInst, known⟩

theorem Agrees.observes (agrees : g.Agrees g') (observes : g.Observes p o a c) :
    g'.Observes p o a c := by
  obtain ⟨inst, f, reads, constant | ⟨varies, n, start, l, found, link, stack, clobber⟩⟩ := observes
  · exact ⟨inst, f, agrees.reads reads, .inl constant⟩
  · obtain ⟨m, found', alike⟩ := agrees.read found
    exact ⟨inst, f, agrees.reads reads,
      .inr ⟨varies, m, start, l, found', alike.defining?.trans link,
      agrees.stack stack, agrees.same_isClobber clobber⟩⟩

theorem Reads.unique {f' : Footprint} (first : g.Reads p a inst f) (second : g.Reads p a inst' f') :
    inst = inst' ∧ f = f' := by
  obtain ⟨n, op, found, _, hasInst, known, footprint⟩ := first
  obtain ⟨m, op', found', _, hasInst', known', footprint'⟩ := second
  obtain rfl := Option.some.inj (found.symm.trans found')
  obtain rfl := Option.some.inj (hasInst.symm.trans hasInst')
  obtain rfl := Except.ok.inj (known.symm.trans known')
  exact ⟨rfl, Option.some.inj (footprint.symm.trans footprint')⟩

theorem Shaped.total_reads (h : g.Shaped p entry) (total : o.Total p) (reads : g.Reads p a inst f) :
    (∃ b, readsConstant p o inst = .ok b) ∧ o.Answers p (f.query inst) := by
  obtain ⟨n, op, found, _, hasInst, known, footprint⟩ := reads
  have placed := h.placed_inst found hasInst
  exact ⟨total.constant inst placed, total.answers inst placed _ (asks_footprint known footprint).1⟩

namespace Uniform

variable {a' : Access} (uniform : g.Uniform p o) (h : g.Shaped p entry) (total : o.Total p)
  (reads : g.Reads p a inst f) (reads' : g.Reads p a' inst' f)
include uniform h total reads reads'

theorem silent (silent : g.Silent p o (f.query inst) d) : g.Silent p o (f.query inst') d := by
  obtain ⟨n, found, isDefinition, _⟩ := id silent
  refine (h.kills_or_silent (h.total_reads total reads').2 found isDefinition).resolve_left
    fun killed => ?_
  exact silent.not_kills ((uniform f a a' inst inst' reads reads' d).mpr killed)

theorem passesTo (passes : g.PassesTo p o (f.query inst) l c) :
    g.PassesTo p o (f.query inst') l c := by
  obtain ⟨before, after, whole, passable⟩ := passes
  exact ⟨before, after, whole, fun x member =>
    Agrees.refl.passable (fun d => (uniform f a a' inst inst' reads reads' d).mpr)
      (fun _ => uniform.silent h total reads reads') (passable x member)⟩

theorem isClobber (clobber : g.IsClobber p o (f.query inst) l c) :
    g.IsClobber p o (f.query inst') l c := by
  refine Agrees.refl.isClobber (uniform f a' a inst' inst reads' reads) (fun _ => ⟨?_, ?_⟩) clobber
  · exact uniform.silent h total reads' reads
  · exact uniform.silent h total reads reads'

end Uniform

namespace Linked

variable (h : g.Linked p entry)
include h

/-- A use of what may be written observes the clobber on the stack of its defining access. -/
theorem observes_iff {start : Access} (reads : g.Reads p a inst f)
    (varies : readsConstant p o inst = .ok false) (found : g.node? a = some n)
    (link : n.defining? = some start) (stack : g.Stack (start :: l)) :
    g.Observes p o a c ↔ g.IsClobber p o (f.query inst) (start :: l) c := by
  constructor
  · rintro ⟨inst', f', reads',
      ⟨constant, _⟩ | ⟨_, m, start', l', found', link', stack', clobber⟩⟩ <;>
      obtain ⟨rfl, rfl⟩ := reads.unique reads'
    · exact absurd (constant.symm.trans varies) (by simp)
    · obtain rfl := Option.some.inj (found.symm.trans found')
      obtain rfl := Option.some.inj (link.symm.trans link')
      rwa [h.stack_unique stack stack']
  · exact fun clobber => ⟨inst, f, reads, .inr ⟨varies, n, start, l, found, link, stack, clobber⟩⟩

theorem observes_unique (first : g.Observes p o a c) (second : g.Observes p o a c') : c = c' := by
  obtain ⟨inst, f, reads, ⟨constant, rfl⟩ | ⟨varies, n, start, l, found, link, stack, clobber⟩⟩ :=
    first
  · obtain ⟨inst', f', reads', ⟨_, rfl⟩ | ⟨varies, _⟩⟩ := second
    · rfl
    · obtain ⟨rfl, rfl⟩ := reads.unique reads'
      exact absurd (constant.symm.trans varies) (by simp)
  · exact clobber.unique ((h.observes_iff reads varies found link stack).mp second)

theorem clobberOf_observes (right : g.Places g.order) (total : o.Total p)
    (reads : g.Reads p a inst f) (fresh : g.cached? a = none) :
    ∃ c effort g', g.clobberOf p o a = .ok (c, effort, g') ∧
      g.Observes p o a c ∧ g.Agrees g' ∧ g'.config = g.config ∧ g'.Places g'.order ∧
      ∀ x, g'.cached? x = if x = a then some c else g.cached? x := by
  obtain ⟨⟨constant, told⟩, answers⟩ := h.total_reads total reads
  obtain ⟨n, op, found, isUse, hasInst, known, footprint⟩ := id reads
  obtain ⟨asks, notFence⟩ := asks_footprint known footprint
  rw [cached?_eq found] at fresh
  cases constant with
  | false =>
      obtain ⟨start, l, c, effort, g', link, stack, _, clobber, answered, kept⟩ :=
        h.clobberOf_eq right found hasInst fresh known notFence told asks answers
      exact ⟨c, effort, g', answered, ⟨inst, f, reads, .inr ⟨told, n, start, l, found, link, stack,
        clobber⟩⟩, kept⟩
  | true =>
      obtain ⟨g', cached, agrees, config, order, answer⟩ :=
        cache_agrees found (n.isPhi_of_inst? hasInst) .liveOnEntry
      refine ⟨.liveOnEntry, .none, g',
        clobberOf_constant found hasInst fresh known notFence told cached,
        ⟨inst, f, reads, .inl ⟨told, rfl⟩⟩, agrees, config, ?_, answer⟩
      rw [order]
      exact agrees.places right

end Linked

end Graph

end MemoryFlow
