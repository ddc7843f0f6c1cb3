import MemoryFlow.Proofs.Clobber.Agreement
import MemoryFlow.Proofs.Clobber.Frame

/-! # Requests never fail

The questions of the library come down to a few questions that are put to the oracle itself, about
instructions of the procedure and about locations (`Oracle.Responds`). If these are answered, a
graph is built for every accepted procedure, however it is configured, and a walker serves every
request about its accesses, whatever was requested before.
-/

namespace MemoryFlow

def Op.locations : Op → List Location
  | .intrinsic _ args => args.map .behind
  | op => (Location.ofOp? op).toList

def Procedure.locations (p : Procedure) : List Location :=
  p.layout.allInsts.flatMap fun inst => (p.op inst).toOption.elim [] Op.locations

/-- Whether an oracle responds to every question about the instructions of a procedure and about the
locations told by `about`. -/
structure Oracle.Responds (o : Oracle) (p : Procedure) (about : Location → Prop) : Prop where
  overlap : ∀ x, about x → ∀ y, about y → ∃ v, o.overlap p x y = .ok v
  constant : ∀ x, about x → ∃ v, o.constant p x false = .ok v
  effect : ∀ inst ∈ p.layout.allInsts, ∃ e, o.effect p inst = .ok e
  effectAt : ∀ inst ∈ p.layout.allInsts, ∀ x, about x → ∃ e, o.effectAt p inst x = .ok e
  effectOnCall : ∀ inst ∈ p.layout.allInsts, ∀ call ∈ p.layout.allInsts,
    (p.op call).toOption.any Op.isCall = true → ∃ e, o.effectOnCall p inst call = .ok e

/-- Whether a query is about an instruction of the procedure or a location told by `about`. -/
def Query.Fits (p : Procedure) (about : Location → Prop) : Query → Prop
  | .call inst => inst ∈ p.layout.allInsts ∧ (p.op inst).toOption.any Op.isCall = true
  | .access inst loc => inst ∈ p.layout.allInsts ∧ ∀ x ∈ loc, about x
  | .location loc => about loc

variable {p : Procedure} {o : Oracle} {about : Location → Prop} {inst : Inst} {op : Op}
  {loc : Location} {q : Query}

theorem Procedure.mem_locations (placed : inst ∈ p.layout.allInsts) (known : p.op inst = .ok op)
    (named : loc ∈ op.locations) : loc ∈ p.locations := by
  refine List.mem_flatMap.mpr ⟨inst, placed, ?_⟩
  rw [known]
  exact named

theorem Query.Fits.loc? (fits : q.Fits p about) (has : q.loc? = some loc) : about loc := by
  cases q with
  | call => cases has
  | access inst x => exact fits.2 loc has
  | location x =>
      cases has
      exact fits

theorem Query.fits_ofInst (names : ∀ loc ∈ p.locations, about loc)
    (placed : inst ∈ p.layout.allInsts) (asks : Query.ofInst p inst = .ok q) : q.Fits p about := by
  obtain ⟨op, known, same⟩ := bind_eq_ok.mp asks
  obtain rfl := Except.ok.inj same
  split
  · rename_i isCall
    refine ⟨placed, ?_⟩
    rw [known]
    exact isCall
  · rename_i notCall
    refine ⟨placed, fun x has => names x (Procedure.mem_locations placed known ?_)⟩
    cases op with
    | intrinsic => exact absurd rfl notCall
    | load | store => exact Option.mem_toList.mpr has
    | _ => cases has

namespace Oracle.Responds

variable (responds : o.Responds p about) (names : ∀ loc ∈ p.locations, about loc)
include responds

theorem areSame {x y : Location} (hx : about x) (hy : about y) : ∃ b, o.areSame p x y = .ok b := by
  obtain ⟨v, told⟩ := responds.overlap x hx y hy
  rw [Oracle.areSame, told]
  exact ⟨_, rfl⟩

theorem classifies (orderly : p.Orderly) : o.Classifies p := by
  intro inst placed
  obtain ⟨op, known⟩ := orderly.exists_op placed
  obtain ⟨e, told⟩ := responds.effect inst placed
  rw [Oracle.roleOf, known, ok_bind, told, ok_bind]
  split_ifs <;> exact ⟨_, rfl⟩

include names

theorem readsConstant (orderly : p.Orderly) (placed : inst ∈ p.layout.allInsts) :
    ∃ b, Graph.readsConstant p o inst = .ok b := by
  obtain ⟨op, known⟩ := orderly.exists_op placed
  rw [Graph.readsConstant, known, ok_bind]
  cases op with
  | load ptr size quals =>
      dsimp only
      split
      · exact ⟨_, rfl⟩
      · exact responds.constant _
          (names _ (Procedure.mem_locations placed known (by simp [Op.locations,
          Location.ofOp?])))
  | _ => exact ⟨_, rfl⟩

theorem mayDefine (orderly : p.Orderly) (placed : inst ∈ p.layout.allInsts)
    (known : p.op inst = .ok op) {user : Option Inst} (asker : ∀ i ∈ user, i ∈ p.layout.allInsts)
    (here : about loc) : ∃ b, o.mayDefine p inst op user loc = .ok b := by
  obtain ⟨e, effect⟩ := responds.effectAt inst placed loc here
  have asEffect : ∃ b,
      (do return (← o.effectAt p inst loc).writes : Except Fault Bool) = .ok b := by
    rw [effect]
    exact ⟨_, rfl⟩
  cases op with
  | load ptr size quals =>
      cases user with
      | none => exact asEffect
      | some user =>
          obtain ⟨moving, knownUser⟩ := orderly.exists_op (asker user rfl)
          rw [Oracle.mayDefine, knownUser, ok_bind]
          cases moving with
          | load _ _ moving =>
              dsimp only
              cases moving.reorder quals with
              | always | never => exact ⟨_, rfl⟩
              | ifDisjoint =>
                  have named : (⟨ptr, some size⟩ : Location) ∈ p.locations :=
                    Procedure.mem_locations placed known (by simp [Op.locations, Location.ofOp?])
                  obtain ⟨v, told⟩ := responds.overlap _ (names _ named) loc here
                  dsimp only
                  rw [areDisjoint, told]
                  exact ⟨_, rfl⟩
          | _ => exact asEffect
  | _ => exact asEffect

theorem answers (orderly : p.Orderly) (fits : q.Fits p about) : o.Answers p q := by
  intro inst placed
  obtain ⟨op, known⟩ := orderly.exists_op placed
  rw [known, ok_bind]
  cases op with
  | intrinsic id args =>
      cases id with
      | lifetimeStart =>
          unfold Oracle.opClobbers
          dsimp only
          split
          · rename_i ptr rest loc has
            have named : .behind ptr ∈ p.locations :=
              Procedure.mem_locations placed known (by simp [Op.locations])
            exact responds.areSame (names _ named) (fits.loc? has)
          · exact ⟨false, rfl⟩
      | _ => exact ⟨false, rfl⟩
  | _ =>
      cases q with
      | call call =>
          obtain ⟨e, told⟩ := responds.effectOnCall inst placed call fits.1 fits.2
          unfold Oracle.opClobbers
          dsimp only
          rw [told]
          exact ⟨_, rfl⟩
      | access user loc =>
          cases loc with
          | none => exact ⟨true, rfl⟩
          | some loc =>
              have asker : ∀ i ∈ some user, i ∈ p.layout.allInsts := by simpa using fits.1
              exact responds.mayDefine names orderly placed known asker (fits.2 loc rfl)
      | location loc =>
          have asker : ∀ i ∈ (none : Option Inst), i ∈ p.layout.allInsts := by simp
          exact responds.mayDefine names orderly placed known asker fits

theorem endsLifetime (orderly : p.Orderly) (placed : inst ∈ p.layout.allInsts)
    (fits : q.Fits p about) : ∃ b, Refinement.endsLifetime p o (some inst) q.loc? = .ok b := by
  obtain ⟨op, known⟩ := orderly.exists_op placed
  cases has : q.loc? with
  | none => exact ⟨false, rfl⟩
  | some loc =>
      rw [Refinement.endsLifetime, known, ok_bind]
      split
      · rename_i ptr rest
        have named : .behind ptr ∈ p.locations :=
          Procedure.mem_locations placed known (by simp [Op.locations])
        exact responds.areSame (names _ named) (fits.loc? has)
      · exact ⟨false, rfl⟩

theorem answersAll (orderly : p.Orderly) : o.AnswersAll p where
  classifies := responds.classifies orderly
  constant := fun _ placed => responds.readsConstant names orderly placed
  answers := fun _ placed _ asks =>
    responds.answers names orderly (Query.fits_ofInst names placed asks)
  lifetimes := fun _ placed _ placed' _ asks =>
    responds.endsLifetime names orderly placed (Query.fits_ofInst names placed' asks)

end Oracle.Responds

namespace Graph

variable {g : Graph} {entry : Block} {a : Access} {n : Node} {config : Config}

theorem build_total (accepted : p.Accepted) (answers : o.AnswersAll p) (config : Config) :
    ∃ g, build p o config = .ok g := by
  obtain ⟨entry, base, _, h, _, uncached, settled, _, builds⟩ :=
    exists_base accepted answers.classifies
  cases refines : config.refineUses with
  | false => exact ⟨{ base with config }, (builds config _).mpr (by rw [refines]; rfl)⟩
  | true =>
      have start := (base.agrees_configured config base.order).linked h
      obtain ⟨g, refined, _⟩ := Refinement.refineUses_total start answers (.of_empty settled)
        ⟨uncached.index, uncached.links⟩
      exact ⟨g, (builds config g).mpr (by rw [refines]; exact refined)⟩

namespace Linked

variable (h : g.Linked p entry) (right : g.Places g.order)
include h right

theorem clobberOf_total (total : o.Total p) (found : g.node? a = some n) :
    ∃ c effort g', g.clobberOf p o a = .ok (c, effort, g') := by
  cases hasInst : n.inst? with
  | none =>
      rw [clobberOf, node_eq found, ok_bind, hasInst]
      exact ⟨_, _, _, rfl⟩
  | some inst =>
      cases fresh : n.cached? with
      | some c =>
          rw [clobberOf, node_eq found, ok_bind, hasInst, fresh]
          exact ⟨_, _, _, rfl⟩
      | none =>
          have placed := h.placed_inst found hasInst
          obtain ⟨op, known⟩ := h.orderly.exists_op placed
          obtain ⟨constant, told⟩ := total.constant inst placed
          cases isFence : op.isFence with
          | true => exact ⟨_, _, _, clobberOf_fence found hasInst fresh known isFence⟩
          | false =>
              cases constant with
              | true =>
                  obtain ⟨g', cached, _⟩ :=
                    cache_agrees found (n.isPhi_of_inst? hasInst) .liveOnEntry
                  exact ⟨_, _, _, clobberOf_constant found hasInst fresh known isFence told cached⟩
              | false =>
                  have asks := ofInst_eq known
                  obtain ⟨_, _, c, effort, g', _, _, _, _, answered, _⟩ :=
                    h.clobberOf_eq right found hasInst fresh known isFence told asks
                      (total.answers inst placed _ asks)
                  exact ⟨c, effort, g', answered⟩

theorem clobberAt_total {loc : Location} (answers : o.Answers p (.location loc))
    (found : g.node? a = some n) : ∃ c effort g', g.clobberAt p o a loc = .ok (c, effort, g') := by
  cases hasInst : n.inst? with
  | none =>
      rw [clobberAt, node_eq found, ok_bind, hasInst]
      exact ⟨_, _, _, rfl⟩
  | some inst =>
      obtain ⟨op, known⟩ := h.orderly.exists_op (h.placed_inst found hasInst)
      cases isFence : op.isFence with
      | true =>
          rw [clobberAt, node_eq found, ok_bind, hasInst]
          simp only [known, ok_bind, isFence]
          exact ⟨_, _, _, rfl⟩
      | false =>
          obtain ⟨_, _, c, effort, g', _, _, _, _, answered, _⟩ := h.clobberAt_eq right found
            (n.isPhi_of_inst? hasInst) (fun inst' op' hasInst' known' => by
              obtain rfl := Option.some.inj (hasInst.symm.trans hasInst')
              obtain rfl := Except.ok.inj (known.symm.trans known')
              exact isFence) answers
          exact ⟨c, effort, g', answered⟩

end Linked

end Graph

namespace Walker

open MemoryFlow.Graph

/-- What can be requested of a walker: the clobber of an access, the nearest access that clobbers a
location, and to forget what was found for an access. -/
inductive Request where
  | clobberOf (a : Access)
  | clobberAt (a : Access) (loc : Location)
  | forget (a : Access)

def Request.serve (p : Procedure) (o : Oracle) (state : Walker × Graph) :
    Request → Except Fault (Walker × Graph)
  | .clobberOf a => do return (← state.1.clobberOf state.2 p o a).2
  | .clobberAt a loc => do return (← state.1.clobberAt state.2 p o a loc).2
  | .forget a => do return (state.1, ← state.2.forget a)

/-- Whether a request is about an access of the graph, and a location told by `about`. -/
def Request.Fits (g : Graph) (about : Location → Prop) : Request → Prop
  | .clobberOf a | .forget a => g.isLive a = true
  | .clobberAt a loc => g.isLive a = true ∧ about loc

variable {g : Graph} {entry : Block} {w : Walker}

theorem Request.Fits.of_agrees {g' : Graph} {request : Request} (fits : request.Fits g about)
    (agrees : g.Agrees g') : request.Fits g' about := by
  have live : ∀ {a}, g.isLive a = true → g'.isLive a = true := by
    intro a live
    obtain ⟨n, found⟩ := Option.isSome_iff_exists.mp live
    obtain ⟨m, found', _⟩ := agrees.read found
    rw [isLive, found']
    rfl
  cases request with
  | clobberOf a | forget a => exact live fits
  | clobberAt a loc => exact ⟨live fits.1, fits.2⟩

theorem serve_total (h : g.Linked p entry) (right : g.Places g.order)
    (responds : o.Responds p about) (names : ∀ loc ∈ p.locations, about loc) {request : Request}
    (fits : request.Fits g about) :
    ∃ w' g', request.serve p o (w, g) = .ok (w', g') ∧ g.Agrees g' ∧ g'.Places g'.order := by
  cases request with
  | clobberOf a =>
      obtain ⟨n, found⟩ := Option.isSome_iff_exists.mp fits
      obtain ⟨c, effort, g', answered⟩ :=
        h.clobberOf_total right (responds.answersAll names h.orderly).toTotal found
      have searched := searched_of_clobberOf answered
      refine ⟨w.after effort, g', ?_, searched.toAgrees,
        searched.settled h.toArranged.listedOnce right⟩
      simp only [Request.serve, clobberOf, answered, ok_bind]
      rfl
  | clobberAt a loc =>
      obtain ⟨n, found⟩ := Option.isSome_iff_exists.mp fits.1
      obtain ⟨c, effort, g', answered⟩ :=
        h.clobberAt_total right (responds.answers names h.orderly (q := .location loc) fits.2) found
      have searched := searched_of_clobberAt answered
      refine ⟨w.after effort, g', ?_, searched.toAgrees,
        searched.settled h.toArranged.listedOnce right⟩
      simp only [Request.serve, clobberAt, answered, ok_bind]
      rfl
  | forget a =>
      obtain ⟨n, found⟩ := Option.isSome_iff_exists.mp fits
      obtain ⟨g', forgot, agrees, _, order⟩ := forget_agrees found
      refine ⟨w, g', ?_, agrees, order ▸ agrees.places right⟩
      simp only [Request.serve, forgot, ok_bind]
      rfl

/-- If the oracle responds, a graph is built for every accepted procedure, however it is configured,
and a walker serves any requests about its accesses. -/
theorem requests_never_fail (accepted : p.Accepted) (responds : o.Responds p about)
    (names : ∀ loc ∈ p.locations, about loc) (config : Config) :
    ∃ g, build p o config = .ok g ∧ ∀ (w : Walker) (requests : List Request),
      (∀ request ∈ requests, request.Fits g about) →
      ∃ w' g', requests.foldlM (Request.serve p o) (w, g) = .ok (w', g') ∧ g.Agrees g' := by
  obtain ⟨g, built⟩ := build_total accepted (responds.answersAll names accepted.orderly) config
  obtain ⟨entry, first, h⟩ := build_built accepted.distinct built
  refine ⟨g, built, fun w requests fits => ?_⟩
  obtain ⟨⟨w', g'⟩, served, agrees, _⟩ := foldlM_total requests (Request.serve p o) (w, g)
    (fun _ state => g.Agrees state.2 ∧ state.2.Places state.2.order)
    ⟨.refl, build_places accepted.distinct built⟩ (by
      rintro seen request rest ⟨w, g₁⟩ whole ⟨agrees, right⟩
      obtain ⟨w', g', served, agrees', right'⟩ :=
        serve_total (w := w) (agrees.linked (h.linked accepted first)) right
          responds names ((fits request (by simp [whole])).of_agrees agrees)
      exact ⟨(w', g'), served, agrees.trans agrees', right'⟩)
  exact ⟨w', g', served, agrees⟩

theorem requests_never_fail_storeBeforeLoop :
    ∃ g, build storeBeforeLoop byAddress { checkLimit := 1, auditClobbers := true } = .ok g ∧
      ∃ w' g', [.clobberOf ⟨3⟩, .forget ⟨3⟩, .clobberAt ⟨3⟩ ⟨⟨1⟩, some 8⟩, .clobberOf ⟨3⟩,
        .clobberOf ⟨4⟩].foldlM (Request.serve storeBeforeLoop byAddress) ({}, g) =
          .ok (w', g') := by
  obtain ⟨g, built, live⟩ :=
    exists_of_any (x := build storeBeforeLoop byAddress { checkLimit := 1, auditClobbers := true })
      (P := fun g => g.isLive ⟨3⟩ && g.isLive ⟨4⟩) (by decide +kernel)
  rw [Bool.and_eq_true] at live
  have responds : byAddress.Responds storeBeforeLoop (· ∈ storeBeforeLoop.locations) :=
    ⟨by decide +kernel, by decide +kernel, by decide +kernel, by decide +kernel, by decide +kernel⟩
  obtain ⟨same, again, serves⟩ :=
    requests_never_fail storeBeforeLoop_accepted responds (fun _ => id)
      { checkLimit := 1, auditClobbers := true }
  obtain rfl := Except.ok.inj (built.symm.trans again)
  obtain ⟨w', g', served, _⟩ :=
    serves {} [.clobberOf ⟨3⟩, .forget ⟨3⟩, .clobberAt ⟨3⟩ ⟨⟨1⟩, some 8⟩,
      .clobberOf ⟨3⟩, .clobberOf ⟨4⟩] (by
        have named : ⟨⟨1⟩, some 8⟩ ∈ storeBeforeLoop.locations := by decide +kernel
        simp [Request.Fits, live, named])
  exact ⟨g, built, w', g', served⟩

end Walker

end MemoryFlow
