import MemoryFlow.Proofs.Clobber.Footprint
import MemoryFlow.Proofs.Dominance.Preorder

/-! # Refining one use after another

What is known of a footprint speaks of the stack on which it was found out, and names the members of
the stack by their height. `Refinement.Tracks` says when that stack is still the end of what holds.
Then only what has come on top since is scanned, and every height that comes up is one on the stack.
Where uses of one footprint are clobbered alike, no clobber comes before what is found
(`Refinement.Refines`); if moreover the walk is `Refinement.Precise`, what is found is what the use
observes.
-/

namespace MemoryFlow

def Procedure.EndsNoLifetime (p : Procedure) : Prop :=
  ∀ inst ∈ p.layout.allInsts, (p.op inst).toOption.bind Op.intrinsic? ≠ some .lifetimeEnd

instance (p : Procedure) : Decidable p.EndsNoLifetime :=
  inferInstanceAs (Decidable (∀ _ ∈ _, _))

/-- Whether the oracle answers all that is asked of it, also by those who want to know where
lifetimes end. -/
structure Oracle.AnswersAll (o : Oracle) (p : Procedure) : Prop extends o.Total p where
  lifetimes : ∀ inst ∈ p.layout.allInsts, ∀ user ∈ p.layout.allInsts, ∀ q,
    Query.ofInst p user = .ok q → ∃ b, Refinement.endsLifetime p o (some inst) q.loc? = .ok b

def Graph.definers (g : Graph) : List Access :=
  ((List.range g.nodes.size).map Entity.mk).filter fun a =>
    a != .liveOnEntry && (g.node? a).any (!·.isUse)

theorem Graph.Linked.length_le_definers {g : Graph} {p : Procedure} {entry : Block}
    {l : List Access} (h : g.Linked p entry) (stack : g.Stack l) :
    l.length ≤ g.definers.length + 1 := by
  have sub : l ⊆ .liveOnEntry :: g.definers := by
    intro a member
    obtain ⟨n, found, notUse⟩ := h.kind_of_stack stack member
    by_cases isEntry : a = .liveOnEntry
    · exact List.mem_cons.mpr (.inl isEntry)
    · have listed : a ∈ (List.range g.nodes.size).map Entity.mk :=
        List.mem_map.mpr ⟨a.index, List.mem_range.mpr (lt_of_node? found), rfl⟩
      exact List.mem_cons_of_mem _ (List.mem_filter.mpr ⟨listed, by simp [isEntry, found, notUse]⟩)
  exact ((h.nodup_stack stack).subperm sub).length_le

/-- Whether `c` is on a stack with so many others below it. -/
def AtHeight (l : List Access) (height : Nat) (c : Access) : Prop :=
  ∃ newer older, l = newer ++ c :: older ∧ older.length = height

namespace AtHeight

variable {l S : List Access} {height : Nat} {a c : Access}

theorem top : AtHeight (c :: l) l.length c :=
  ⟨[], l, rfl, rfl⟩

theorem lt_length (high : AtHeight l height c) : height < l.length := by
  obtain ⟨newer, older, rfl, rfl⟩ := high
  simp only [List.length_append, List.length_cons]
  omega

theorem mono (sub : S <:+ l) (high : AtHeight S height c) : AtHeight l height c := by
  obtain ⟨front, rfl⟩ := sub
  obtain ⟨newer, older, rfl, rfl⟩ := high
  exact ⟨front ++ newer, older, by simp, rfl⟩

theorem getElem? (high : AtHeight l height c) : l[l.length - 1 - height]? = some c := by
  obtain ⟨newer, older, rfl, rfl⟩ := high
  rw [List.getElem?_append_right (by simp only [List.length_append, List.length_cons]; omega)]
  simp

theorem of_getElem? {depth : Nat} (found : l[depth]? = some c) :
    AtHeight l (l.length - 1 - depth) c := by
  obtain ⟨inside, same⟩ := List.getElem?_eq_some_iff.mp found
  refine ⟨l.take depth, l.drop (depth + 1), ?_, by rw [List.length_drop]; omega⟩
  rw [← same, ← List.drop_eq_getElem_cons inside, List.take_append_drop]

end AtHeight

namespace Refinement

open MemoryFlow.Graph

variable {g g' : Graph} {p : Procedure} {o : Oracle} {entry b : Block} {a c : Access} {n : Node}
  {inst : Inst} {f : Footprint} {l front whole : List Access} {r : Refinement} {seen : List Block}
  {visited : List Access}

theorem endsLifetime_eq (orderly : p.Orderly) (noEnd : p.EndsNoLifetime)
    (placed : inst ∈ p.layout.allInsts) (loc : Option Location) :
    endsLifetime p o (some inst) loc = .ok false := by
  obtain ⟨op, known⟩ := orderly.exists_op placed
  have other := noEnd inst placed
  rw [known] at other
  cases loc with
  | none => rfl
  | some loc =>
      rw [endsLifetime, known, ok_bind]
      split
      · exact absurd rfl other
      · rfl

theorem answersAll (orderly : p.Orderly) (total : o.Total p) (noEnd : p.EndsNoLifetime) :
    o.AnswersAll p :=
  ⟨total, fun _ placed _ _ _ _ => ⟨false, endsLifetime_eq orderly noEnd placed _⟩⟩

theorem endsLifetime_total (h : g.Shaped p entry) (answers : o.AnswersAll p)
    (found : g.node? c = some n) (reads : g.Reads p a inst f) :
    ∃ b, endsLifetime p o n.inst? (f.query inst).loc? = .ok b ∧
      (p.EndsNoLifetime → b = false) := by
  obtain ⟨m, op, found', _, hasInst', known, footprint⟩ := reads
  cases hasInst : n.inst? with
  | none => exact ⟨false, rfl, fun _ => rfl⟩
  | some i =>
      have placed := h.placed_inst found hasInst
      obtain ⟨b, told⟩ := answers.lifetimes i placed inst (h.placed_inst found' hasInst') _
        (asks_footprint known footprint).1
      refine ⟨b, told, fun noEnd => ?_⟩
      rw [endsLifetime_eq h.orderly noEnd placed] at told
      exact (Except.ok.inj told).symm

/-- Whether `g'` is `g` with more settled and perhaps another clobber cached for `a`. -/
structure Keeps (g : Graph) (a : Access) (g' : Graph) : Prop where
  agrees : g.Agrees g'
  config : g'.config = g.config
  right : g'.Places g'.order
  cached : ∀ x, x ≠ a → g'.cached? x = g.cached? x

/-- What a scan of a stack answers: a height on the stack, that of the clobber if no lifetime ends,
or nothing if all that was looked at is passed over. -/
def Scanned (g : Graph) (p : Procedure) (o : Oracle) (q : Query) (count : Nat) (l : List Access) :
    Option Nat → Prop
  | none => ∀ d ∈ l.take count, g.Silent p o q d
  | some height => height < l.length ∧
      (p.EndsNoLifetime → ∃ c, AtHeight l height c ∧ g.IsClobber p o q l c)

theorem Scanned.cons {q : Query} {count : Nat} (silent : g.Silent p o q a) :
    ∀ {found}, Scanned g p o q count l found → Scanned g p o q (count + 1) (a :: l) found
  | none, scanned => by
      rw [Scanned, List.take_succ_cons]
      exact List.forall_mem_cons.mpr ⟨silent, scanned⟩
  | some height, ⟨inside, clobbers⟩ => by
      refine ⟨Nat.lt_succ_of_lt inside, fun noEnd => ?_⟩
      obtain ⟨c, high, clobber⟩ := clobbers noEnd
      exact ⟨c, high.mono (List.suffix_cons a l), isClobber_cons.mpr (.inr ⟨.inl silent, clobber⟩)⟩

theorem Scanned.of_clobber {q : Query} {count height : Nat} (high : AtHeight l height c)
    (clobber : g.IsClobber p o q l c) : Scanned g p o q count l (some height) :=
  ⟨high.lt_length, fun _ => ⟨c, high, clobber⟩⟩

/-- A scan down the stack of a use finds its clobber, or that all it looks at is passed over. -/
theorem scan_eq (h : g.Linked p entry) (right : g.Places g.order) (total : o.AnswersAll p)
    (reads : g.Reads p a inst f) (fresh : g.cached? a = none) (stack : g.Stack whole)
    (observed : ∀ c, g.Observes p o a c ↔ g.IsClobber p o (f.query inst) whole c) :
    ∀ count front l, whole = front ++ l → (∀ d ∈ front, g.Silent p o (f.query inst) d) →
      ∃ found g', scan p o a (f.query inst) count l g = .ok (found, g') ∧ Keeps g a g' ∧
        Scanned g p o (f.query inst) count l found := by
  have answers := (h.total_reads total.toTotal reads).2
  intro count
  induction count with
  | zero =>
      intro front l _ _
      exact ⟨none, g, rfl, ⟨.refl, rfl, right, fun _ _ => rfl⟩, by simp [Scanned]⟩
  | succ count ih =>
      intro front l same silent
      cases l with
      | nil => exact ⟨none, g, rfl, ⟨.refl, rfl, right, fun _ _ => rfl⟩, by simp [Scanned]⟩
      | cons candidate older =>
          obtain ⟨n, found, notUse⟩ := h.kind_of_stack stack (a := candidate) (by simp [same])
          rw [scan, node_eq found, ok_bind]
          cases isPhi : n.isPhi with
          | true =>
              obtain ⟨c, effort, g', answered, observes, agrees, config, right', cached⟩ :=
                h.clobberOf_observes right total.toTotal reads fresh
              have clobber : g.IsClobber p o (f.query inst) (candidate :: older) c :=
                .of_append (fun d member => .inl (silent d member))
                  (same ▸ (observed c).mp observes)
              obtain ⟨depth, indexed⟩ := Option.isSome_iff_exists.mp
                (List.isSome_idxOf?.mpr clobber.mem)
              have place : (candidate :: older)[depth]? = some c := by
                obtain ⟨inside, equal, _⟩ := List.idxOf?_eq_some_iff.mp indexed
                rw [List.getElem?_eq_getElem inside, equal]
              refine ⟨some (older.length - depth), g', ?_,
                ⟨agrees, config, right', fun x other => ?_⟩,
                .of_clobber (.of_getElem? place) clobber⟩
              · rw [if_pos rfl, answered, ok_bind]
                dsimp only
                rw [indexed]
                rfl
              · rw [cached, if_neg other]
          | false =>
              obtain ⟨ends, told, never⟩ := endsLifetime_total h.toShaped total found reads
              rw [if_neg (by simp), if_neg (by simp [notUse]), told, ok_bind]
              cases ends with
              | true =>
                  exact ⟨some 0, g, rfl, ⟨.refl, rfl, right, fun _ _ => rfl⟩, Nat.succ_pos _,
                    fun noEnd => absurd (never noEnd) (by simp)⟩
              | false =>
                  rw [if_neg (by simp)]
                  rcases h.kills_or_silent answers found (n.isDefinition_of notUse isPhi) with
                    kills | passes
                  · obtain ⟨_, _, _, yes⟩ := id kills
                    refine ⟨some older.length, g, ?_, ⟨.refl, rfl, right, fun _ _ => rfl⟩,
                      .of_clobber .top (isClobber_cons.mpr (.inl ⟨kills.not_passable, rfl⟩))⟩
                    rw [yes, ok_bind, if_pos rfl]
                    rfl
                  · obtain ⟨_, _, _, no⟩ := id passes
                    obtain ⟨result, g', scanned, keeps, right⟩ := ih (front ++ [candidate]) older
                      (by simpa using same) (by simpa [or_imp, forall_and] using ⟨silent, passes⟩)
                    refine ⟨result, g', ?_, keeps, right.cons passes⟩
                    rw [no, ok_bind, if_neg (by simp), scanned]

/-- Whether what is found for one use holds for all of its footprint. -/
structure Shared (g : Graph) (p : Procedure) (o : Oracle) : Prop where
  lifetimes : p.EndsNoLifetime
  uniform : g.Uniform p o

/-- Whether moreover all that holds is looked at. -/
structure Precise (g : Graph) (p : Procedure) (o : Oracle) : Prop extends Shared g p o where
  limit : g.definers.length ≤ g.config.checkLimit

/-- What is found for a query on a stack: no clobber comes before it, and in a precise walk it is
the clobber. -/
structure Found (g : Graph) (p : Procedure) (o : Oracle) (q : Query) (l : List Access)
    (c : Access) : Prop where
  passes : g.PassesTo p o q l c
  clobber : Precise g p o → g.IsClobber p o q l c

namespace Found

theorem of_clobber {q : Query} (clobber : g.IsClobber p o q l c) : Found g p o q l c :=
  ⟨clobber.passesTo, fun _ => clobber⟩

theorem append {q : Query} (silent : ∀ d ∈ front, g.Silent p o q d) (found : Found g p o q l c) :
    Found g p o q (front ++ l) c := by
  have passable : ∀ d ∈ front, g.Passable p o q d := fun d member => .inl (silent d member)
  obtain ⟨⟨before, after, rfl, passed⟩, clobber⟩ := found
  refine ⟨⟨front ++ before, after, by simp, fun d member => ?_⟩, fun precise => ?_⟩
  · exact (List.mem_append.mp member).elim (passable d) (passed d)
  · exact (clobber precise).append passable

theorem transfer (h : g.Linked p entry) (total : o.Total p) (shared : Shared g p o) {a' : Access}
    {inst' : Inst} (reads : g.Reads p a inst f) (reads' : g.Reads p a' inst' f)
    (found : Found g p o (f.query inst) l c) : Found g p o (f.query inst') l c :=
  ⟨shared.uniform.passesTo h.toShaped total reads reads' found.passes,
    fun precise => shared.uniform.isClobber h.toShaped total reads reads' (found.clobber precise)⟩

end Found

def Refines (g : Graph) (p : Procedure) (o : Oracle) (a c : Access) : Prop :=
  ∃ inst f, g.Reads p a inst f ∧
    (readsConstant p o inst = .ok true ∧ c = .liveOnEntry ∨
      readsConstant p o inst = .ok false ∧ ∃ n start l, g.node? a = some n ∧
        n.defining? = some start ∧ g.Stack (start :: l) ∧ Found g p o (f.query inst) (start :: l) c)

theorem Refines.observes (precise : Precise g p o) (refines : Refines g p o a c) :
    g.Observes p o a c := by
  obtain ⟨inst, f, reads, constant | ⟨varies, n, start, l, foundA, link, stack, found⟩⟩ := refines
  · exact ⟨inst, f, reads, .inl constant⟩
  · exact ⟨inst, f, reads, .inr ⟨varies, n, start, l, foundA, link, stack, found.clobber precise⟩⟩

/-- Whether what is known of a footprint speaks of the stack `S`, and names what is found there. -/
structure Describes (g : Graph) (p : Procedure) (o : Oracle) (f : Footprint) (k : Knowledge)
    (S : List Access) : Prop where
  bound : k.bound + 1 = S.length
  kill : k.kill.getD k.bound < S.length
  clobber : Shared g p o → ∃ c, AtHeight S (k.kill.getD k.bound) c ∧
    ∀ a inst, g.Reads p a inst f → Found g p o (f.query inst) S c

/-- Whether what is known of a footprint was found out in `place`, about the stack `S`. -/
structure Recalls (g : Graph) (p : Procedure) (o : Oracle) (f : Footprint) (k : Knowledge)
    (place : Block) (S : List Access) : Prop extends Describes g p o f k S where
  block : k.boundBlock = some place
  within : S <:+ g.stackOut place

/-- What is true of the walk over the dominator tree, once it has come to these blocks and accesses.
What is known holds for as long as no definition ceases to hold, and in the block where it was found
out. -/
structure Tracks (g : Graph) (p : Procedure) (o : Oracle) (seen : List Block) (here : Option Block)
    (visited : List Access) (r : Refinement) : Prop where
  agrees : g.Agrees r.graph
  config : r.graph.config = g.config
  right : r.graph.Places r.graph.order
  cached : Shared g p o → ∀ a c, r.graph.cached? a = some c → Refines g p o a c
  done : Precise g p o → ∀ a ∈ visited, ∀ inst f, g.Reads p a inst f →
    (r.graph.cached? a).isSome = true
  epoch : 0 < r.epoch
  known : ∀ f, r.known f = {} ∨ ∃ bound ∈ seen, ∃ S, Recalls g p o f (r.known f) bound S ∧
    (r.known f).epoch ≤ r.epoch ∧
    ((r.known f).epoch = r.epoch ∨ here = some bound → S <:+ r.holding)

theorem describes_entry (h : g.Linked p entry) {k : Knowledge} (bound : k.bound = 0)
    (kill : k.kill = none) (f : Footprint) : Describes g p o f k [.liveOnEntry] := by
  rw [← Option.getD_none (a := k.bound), ← kill] at bound
  refine ⟨by simpa [kill] using bound, by simp [bound],
    fun _ => ⟨.liveOnEntry, ?_, fun _ _ _ => ?_⟩⟩
  · rw [bound]
    exact .top
  · exact .of_clobber (isClobber_cons.mpr (.inl ⟨h.kills_entry.not_passable, rfl⟩))

/-- What is known on coming to a use in a block is about the end of what holds there. -/
theorem Tracks.current_eq (h : g.Linked p entry) (reached : Reaches g.flow.Edge entry b)
    (tracks : Tracks g p o seen (some b) visited r) (sub : g.stackIn b <:+ r.holding)
    (f : Footprint) : ∃ k S, r.current f b = .ok k ∧ k.epoch = r.epoch ∧ S <:+ r.holding ∧
      Describes g p o f k S := by
  have last : [Access.liveOnEntry] <:+ r.holding := (List.suffix_append _ _).trans sub
  rw [current]
  rcases tracks.known f with blank | ⟨bound, _, S, ⟨describes, block, within⟩, _, holds⟩
  · rw [blank, if_neg (by have := tracks.epoch; simp; omega)]
    exact ⟨_, _, rfl, rfl, last, describes_entry h rfl rfl f⟩
  · by_cases same : (r.known f).epoch = r.epoch
    · rw [if_pos same]
      exact ⟨_, S, rfl, same, holds (.inl same), describes⟩
    · -- Since then something was dropped. What dominated the block of the last use dominates this
      -- one too if that block does, and otherwise nothing is taken for known.
      rw [if_neg same]
      dsimp only
      rw [block]
      dsimp only
      rw [tracks.agrees.tree]
      cases dominates : g.tree.dominates bound b with
      | true =>
          refine ⟨_, S, rfl, rfl, ?_, ⟨describes.bound, describes.kill, describes.clobber⟩⟩
          by_cases here : bound = b
          · exact holds (.inr (congrArg some here.symm))
          · have dom := (h.tree.dominates bound b).mp dominates
            exact within.trans ((h.stackOut_suffix_stackIn reached here dom).trans sub)
      | false =>
          obtain ⟨front, whole⟩ := last
          obtain ⟨n, found, _⟩ := node?_of_outline? h.entryNode
          obtain ⟨m, found', _⟩ := tracks.agrees.read found
          rw [← whole, List.getLast?_concat]
          dsimp only
          rw [node_eq found']
          exact ⟨_, _, rfl, rfl, List.suffix_append _ _, describes_entry h rfl rfl f⟩

namespace Tracks

theorem skip {here : Option Block} (tracks : Tracks g p o seen here visited r)
    (done : Precise g p o → ∀ inst f, g.Reads p a inst f → (r.graph.cached? a).isSome = true) :
    Tracks g p o seen here (visited ++ [a]) r :=
  { tracks with
    done := fun precise x member inst f reads => by
      rcases List.mem_append.mp member with earlier | same
      · exact tracks.done precise x earlier inst f reads
      · obtain rfl := List.mem_singleton.mp same
        exact done precise inst f reads }

theorem push {here : Option Block} (tracks : Tracks g p o seen here visited r)
    (noUse : ∀ inst f, ¬g.Reads p a inst f) :
    Tracks g p o seen here (visited ++ [a]) { r with holding := a :: r.holding } :=
  { tracks.skip fun _ inst f reads => absurd reads (noUse inst f) with
    known := fun f => (tracks.known f).imp_right fun ⟨bound, member, S, recalls, early, holds⟩ =>
      ⟨bound, member, S, recalls, early,
        fun now => (holds now).trans (List.suffix_cons a r.holding)⟩ }

theorem setGraph {here : Option Block} (tracks : Tracks g p o seen here visited r)
    (keeps : Keeps r.graph a g') (answer : g'.cached? a = some c)
    (refines : Shared g p o → Refines g p o a c) :
    Tracks g p o seen here (visited ++ [a]) { r with graph := g' } where
  agrees := tracks.agrees.trans keeps.agrees
  config := keeps.config.trans tracks.config
  right := keeps.right
  cached shared x d cached := by
    by_cases same : x = a
    · subst same
      exact Option.some.inj (answer.symm.trans cached) ▸ refines shared
    · exact tracks.cached shared x d (keeps.cached x same ▸ cached)
  done precise x member inst f reads := by
    by_cases same : x = a
    · subst same
      exact Option.isSome_iff_exists.mpr ⟨c, answer⟩
    · have earlier := (List.mem_append.mp member).resolve_right (by simpa using same)
      exact keeps.cached x same ▸ tracks.done precise x earlier inst f reads
  epoch := tracks.epoch
  known := tracks.known

theorem learn {here : Option Block} {bound : Block} {k : Knowledge} {S : List Access}
    (tracks : Tracks g p o seen here visited r) (member : bound ∈ seen)
    (recalls : Recalls g p o f k bound S) (now : k.epoch = r.epoch) (sub : S <:+ r.holding) :
    Tracks g p o seen here visited (r.learn f k) where
  agrees := tracks.agrees
  config := tracks.config
  right := tracks.right
  cached := tracks.cached
  done := tracks.done
  epoch := tracks.epoch
  known f' := by
    by_cases same : f' = f
    · rw [Refinement.learn]
      dsimp only
      rw [if_pos same]
      exact .inr ⟨bound, member, S, same ▸ recalls, Nat.le_of_eq now, fun _ => sub⟩
    · rw [Refinement.learn]
      dsimp only
      rw [if_neg same]
      exact tracks.known f'

end Tracks

theorem Keeps.cache (keeps : Keeps g a g') (found : g.node? a = some n) (notPhi : n.isPhi = false)
    (c : Access) : ∃ g'', g'.cache a c = .ok g'' ∧ Keeps g a g'' ∧ g''.cached? a = some c := by
  obtain ⟨m, found', alike⟩ := keeps.agrees.read found
  obtain ⟨g'', cached, agrees, config, order, answer⟩ :=
    cache_agrees found' (alike.isPhi.trans notPhi) c
  refine ⟨g'', cached,
    ⟨keeps.agrees.trans agrees, config.trans keeps.config, ?_, fun x other => ?_⟩, ?_⟩
  · rw [order]
    exact agrees.places keeps.right
  · rw [answer, if_neg other, keeps.cached x other]
  · rw [answer, if_pos rfl]

theorem Scanned.of_agrees {q : Query} {count : Nat} (agrees : g.Agrees g') :
    ∀ {found}, Scanned g' p o q count l found → Scanned g p o q count l found
  | none, silent => fun d member => agrees.symm.silent (silent d member)
  | some _, ⟨inside, clobbers⟩ => ⟨inside, fun noEnd =>
      have ⟨c, high, clobber⟩ := clobbers noEnd
      ⟨c, high, agrees.symm.same_isClobber clobber⟩⟩

/-- A scan down to what is known of already finds the clobber, or what is found is what is known. -/
theorem Scanned.resolve {k : Knowledge} {S : List Access} (reads : g.Reads p a inst f)
    (suffix : S <:+ l) (describes : Describes g p o f k S) :
    ∀ {found}, Scanned g p o (f.query inst) (l.length - S.length) l found →
      found.getD (k.kill.getD k.bound) < l.length ∧ (Shared g p o →
        ∃ d, AtHeight l (found.getD (k.kill.getD k.bound)) d ∧ Found g p o (f.query inst) l d)
  | none, scanned => by
      refine ⟨Nat.lt_of_lt_of_le describes.kill suffix.length_le, fun shared => ?_⟩
      obtain ⟨c, high, finds⟩ := describes.clobber shared
      obtain ⟨front, rfl⟩ := suffix
      rw [Scanned, List.length_append, Nat.add_sub_cancel, List.take_left] at scanned
      exact ⟨c, high.mono (List.suffix_append front S), (finds a inst reads).append scanned⟩
  | some _, ⟨inside, clobbers⟩ => ⟨inside, fun shared =>
      have ⟨c, high, clobber⟩ := clobbers shared.lifetimes
      ⟨c, high, .of_clobber clobber⟩⟩

/-- What is known when all that holds, up to height `top`, has been looked at or passed over in a
block. -/
def upTo (k : Knowledge) (top : Nat) (b : Block) (kill : Option Nat) : Knowledge :=
  { k with bound := top, boundBlock := some b, kill }

theorem Describes.heights {k : Knowledge} {S : List Access} (describes : Describes g p o f k S)
    (suffix : S <:+ l) : k.bound ≤ l.length - 1 ∧ k.kill.getD (l.length - 1) ≤ l.length - 1 ∧
      min k.bound (k.kill.getD (l.length - 1)) = k.kill.getD k.bound ∧
      l.length - 1 - k.bound = l.length - S.length := by
  have length := suffix.length_le
  have bound := describes.bound
  have killed := describes.kill
  cases kill : k.kill with
  | none =>
      simp only [Option.getD_none]
      omega
  | some height =>
      simp only [kill, Option.getD_some] at killed ⊢
      omega

theorem recalls_upTo {k : Knowledge} {kill : Option Nat} (some' : l ≠ [])
    (within : l <:+ g.stackOut b) (inside : kill.getD (l.length - 1) < l.length)
    (finds : Shared g p o → ∃ c, AtHeight l (kill.getD (l.length - 1)) c ∧
      ∀ a inst, g.Reads p a inst f → Found g p o (f.query inst) l c) :
    Recalls g p o f (upTo k (l.length - 1) b kill) b l where
  bound := Nat.succ_pred_eq_of_pos (List.length_pos_iff.mpr some')
  kill := inside
  clobber := finds
  block := rfl
  within := within

section RefineUse

variable {k : Knowledge} (current : r.current f b = .ok k) (bound : k.bound ≤ r.holding.length - 1)
  (kill : k.kill.getD (r.holding.length - 1) ≤ r.holding.length - 1)
include current bound kill

theorem refineUse_limited (limited : r.graph.config.checkLimit < r.holding.length - 1 - k.bound) :
    refineUse p o r b a inst f = .ok (r.learn f (upTo k (r.holding.length - 1) b none)) := by
  rw [refineUse, current, ok_bind]
  dsimp only
  rw [if_neg (by omega), if_neg (by omega), if_pos limited]
  rfl

theorem refineUse_scanned {found : Option Nat} {g'' : Graph} {height : Nat}
    (enough : ¬r.graph.config.checkLimit < r.holding.length - 1 - k.bound)
    (scanned : scan p o a (f.query inst) (r.holding.length - 1 - k.bound) r.holding r.graph =
      .ok (found, g'))
    (clobber : found.getD (min k.bound (k.kill.getD (r.holding.length - 1))) = height)
    (here : r.holding[r.holding.length - 1 - height]? = some c) (cached : g'.cache a c = .ok g'') :
    refineUse p o r b a inst f =
      .ok ({ r with graph := g'' }.learn f (upTo k (r.holding.length - 1) b (some height))) := by
  rw [refineUse, current, ok_bind]
  dsimp only
  rw [if_neg (by omega), if_neg (by omega), if_neg enough, scanned, ok_bind]
  dsimp only
  rw [clobber, here]
  dsimp only
  rw [cached]
  rfl

end RefineUse

/-- A use in a block that can be reached is refined, or passed over if too much would have to be
looked at. -/
theorem refineUse_tracks (h : g.Linked p entry) (total : o.AnswersAll p)
    (reached : Reaches g.flow.Edge entry b) (tracks : Tracks g p o seen (some b) visited r)
    (member : b ∈ seen) (reads : g.Reads p a inst f) (fresh : r.graph.cached? a = none)
    (varies : readsConstant p o inst = .ok false) (found : g.node? a = some n)
    (link : n.defining? = some c) (top : r.holding = c :: l) (stack : g.Stack r.holding)
    (sub : g.stackIn b <:+ r.holding) (within : r.holding <:+ g.stackOut b) :
    ∃ r', refineUse p o r b a inst f = .ok r' ∧ Tracks g p o seen (some b) (visited ++ [a]) r' ∧
      r'.holding = r.holding := by
  obtain ⟨k, S, current, epoch, suffix, describes⟩ := tracks.current_eq h reached sub f
  have agrees := tracks.agrees
  have observed : ∀ d, g.Observes p o a d ↔ g.IsClobber p o (f.query inst) r.holding d := by
    intro d
    rw [top] at stack ⊢
    exact h.observes_iff reads varies found link stack
  have some' : r.holding ≠ [] := by simp [top]
  -- The checks hold, for what is known is about the end of what holds.
  obtain ⟨bound, kill, lower, count⟩ := describes.heights suffix
  by_cases limited : r.graph.config.checkLimit < r.holding.length - 1 - k.bound
  · -- Too much would have to be looked at, which a precise walk never meets. Nothing comes before
    -- the newest.
    have coarse : ¬Precise g p o := by
      intro precise
      have := h.length_le_definers stack
      have := precise.limit
      rw [tracks.config] at limited
      omega
    refine ⟨_, refineUse_limited current bound kill limited,
      (tracks.skip fun precise => absurd precise coarse).learn member
        (recalls_upTo some' within ?_ fun _ => ⟨c, ?_, fun _ _ _ => ?_⟩) epoch (List.suffix_refl _),
        rfl⟩
    · simp [top]
    · rw [top]
      exact .top
    · rw [top]
      exact ⟨⟨[], l, rfl, by simp⟩, fun precise => absurd precise coarse⟩
  · obtain ⟨height?, g', scanned, keeps, result⟩ := scan_eq (agrees.linked h) tracks.right total
      (agrees.reads reads) fresh (agrees.stack stack)
      (fun c =>
        ⟨fun observes => agrees.same_isClobber ((observed c).mp (agrees.symm.observes observes)),
        fun clobber => agrees.observes ((observed c).mpr (agrees.symm.same_isClobber clobber))⟩)
      (r.holding.length - S.length) [] r.holding rfl (by simp)
    obtain ⟨inside, finds⟩ := (result.of_agrees agrees).resolve reads suffix describes
    obtain ⟨d, here⟩ :
        ∃ d, r.holding[r.holding.length - 1 - height?.getD (k.kill.getD k.bound)]? = some d :=
      ⟨_, List.getElem?_eq_getElem (by omega)⟩
    have finds : Shared g p o → AtHeight r.holding (height?.getD (k.kill.getD k.bound)) d ∧
        Found g p o (f.query inst) r.holding d := by
      intro shared
      obtain ⟨d', high, finds⟩ := finds shared
      obtain rfl := Option.some.inj (here.symm.trans high.getElem?)
      exact ⟨high, finds⟩
    obtain ⟨m, op, foundA, isUse, hasInst, _⟩ := agrees.reads reads
    obtain ⟨g'', cached, keeps, answer⟩ := keeps.cache foundA (m.isPhi_of_inst? hasInst) d
    refine ⟨_,
      refineUse_scanned current bound kill limited (count ▸ scanned) (by rw [lower]) here cached,
      (tracks.setGraph keeps answer fun shared => ?_).learn member
        (recalls_upTo some' within inside fun shared => ⟨d, (finds shared).1, fun _ _ reads' => ?_⟩)
        epoch (List.suffix_refl _), rfl⟩
    · exact ⟨inst, f, reads,
        .inr ⟨varies, n, c, l, found, link, top ▸ stack, top ▸ (finds shared).2⟩⟩
    · exact (finds shared).2.transfer h total.toTotal shared reads reads'

theorem visit_tracks (h : g.Linked p entry) (total : o.AnswersAll p)
    (reached : Reaches g.flow.Edge entry b) (member : b ∈ seen) {before after : List Access}
    (place : g.accesses b = before ++ a :: after)
    (tracks : Tracks g p o seen (some b) visited r)
    (holding : r.holding = (g.defining before).reverse ++ g.stackIn b) :
    ∃ r', visit p o b r a = .ok r' ∧ Tracks g p o seen (some b) (visited ++ [a]) r' ∧
      r'.holding = (g.defining (before ++ [a])).reverse ++ g.stackIn b := by
  obtain ⟨other, n, found, rfl⟩ :=
    h.mem_accesses.mp (place ▸ List.mem_append_right _ List.mem_cons_self)
  obtain ⟨⟨number, block, role, users⟩, found', alike⟩ := tracks.agrees.read found
  rw [visit, node_eq found', ok_bind]
  cases role with
  | definition | phi =>
      have notUse : n.isUse = false := alike.isUse.symm
      refine ⟨_, rfl, tracks.push fun inst f ⟨m, _, found', isUse, _⟩ => ?_, ?_⟩
      · obtain rfl := Option.some.inj (found.symm.trans found')
        rw [notUse] at isUse
        cases isUse
      · rw [defining_define (outline?_eq found) (by simpa using notUse),
          List.reverse_append, holding]
        rfl
  | use inst link =>
      have isUse : n.isUse = true := alike.isUse.symm
      have hasInst : n.inst? = some inst := alike.inst?.symm
      rw [defining_use (outline?_eq found) (by simpa using isUse), ← holding]
      have cached : r.graph.cached? a = link.cached := cached?_eq found'
      dsimp only
      cases fresh : link.cached with
      | some c =>
          refine ⟨r, rfl, tracks.skip fun _ _ _ _ => ?_, rfl⟩
          rw [cached, fresh]
          rfl
      | none =>
          have placed := h.placed_inst found hasInst
          obtain ⟨op, known⟩ := h.orderly.exists_op placed
          obtain ⟨constant, told⟩ := total.constant inst placed
          rw [if_neg (by simp), told, ok_bind]
          cases constant with
          | true =>
              obtain ⟨f, footprint⟩ := footprint_of_readsConstant known told
              have keeps : Keeps r.graph a r.graph := ⟨.refl, rfl, tracks.right, fun _ _ => rfl⟩
              obtain ⟨g', done, keeps, answer⟩ := keeps.cache found' rfl .liveOnEntry
              refine ⟨{ r with graph := g' }, ?_, tracks.setGraph keeps answer fun _ => ⟨inst, f,
                ⟨n, op, found, isUse, hasInst, known, footprint⟩, .inl ⟨told, rfl⟩⟩, rfl⟩
              rw [if_pos rfl, done]
              rfl
          | false =>
              rw [if_neg (by simp), known, ok_bind]
              cases footprint : Footprint.ofOp? op with
              | none =>
                  refine ⟨r, rfl,
                    tracks.skip fun _ inst' f ⟨m, op', found', _, hasInst', known', has⟩ => ?_,
                    rfl⟩
                  obtain rfl := Option.some.inj (found.symm.trans found')
                  obtain rfl := Option.some.inj (hasInst.symm.trans hasInst')
                  obtain rfl := Except.ok.inj (known.symm.trans known')
                  rw [footprint] at has
                  cases has
              | some f =>
                  have reads : g.Reads p a inst f :=
                    ⟨n, op, found, isUse, hasInst, known, footprint⟩
                  have contained := (h.tree.reaches n.block).mpr reached
                  have link := h.defined _ _ _ _ _ place found (n.isPhi_of_inst? hasInst)
                  have stack := h.stack_holdsAfter contained place
                  obtain ⟨l, top⟩ := exists_stack_tail contained before
                  exact refineUse_tracks h total reached tracks member reads (cached.trans fresh)
                    told found link (holding.trans top) (holding ▸ stack)
                    (holding ▸ List.suffix_append _ _) (holding ▸ h.stackAt_suffix place)

end Refinement

end MemoryFlow
