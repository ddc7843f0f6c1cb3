import Mathlib.Data.List.TakeWhile
import MemoryFlow.Proofs.Clobber.Walk

/-! # The search finds the nearest clobber

A round of the search goes up from everything that flows into a phi. It either meets a clobber
before it comes to the phi's target, and then the phi is the answer, or it has gone up from
everything above the phi and come to the target. No clobber is ever set aside: a route passes the
target before anything that dominates it.

Rounds share what has been visited. That loses nothing, for what an earlier round has gone up from
is below the phi of the next round, and no clobber is met between the two. Whatever path of a round
is followed back leads to the round's phi (`Exploring.begun`).
-/

namespace MemoryFlow

theorem outset_within (round : Nat) (phi last : Access) (legs : List Leg) :
    outset round phi (⟨round, last⟩ :: legs) = outset round phi legs := by
  simp [outset]

theorem outset_next (round : Nat) (phi : Access) (legs : List Leg) :
    outset (round + 1) phi (⟨round, phi⟩ :: legs) = .ok phi := by
  simp [outset, pure, Except.pure]

namespace Graph

variable {g : Graph} {p : Procedure} {o : Oracle} {q : Query} {entry b : Block}
  {a c phi target : Access} {n : Node} {round : Nat} {l start rest route : List Access}
  {pending : List Branch} {x : Exploration}

/-- Whether `target` is on the stack of `a`. -/
def Under (g : Graph) (target a : Access) : Prop :=
  ∃ l, g.Stack (a :: l) ∧ target ∈ a :: l

/-- Whether the walk from `a` came to the target or to a phi into which only `known` values flow. -/
def Settled (g : Graph) (p : Procedure) (o : Oracle) (q : Query) (target : Access) (reached : Bool)
    (known : Access → Prop) (a : Access) : Prop :=
  ∃ l before x after, g.Stack (a :: l) ∧ a :: l = before ++ x :: after ∧
    (∀ y ∈ before, g.Silent p o q y) ∧ target ∈ x :: after ∧
    (x = target ∧ reached = true ∨
      (∃ n, g.node? x = some n ∧ n.isPhi = true) ∧ ∀ v, g.Above x v → known v)

/-- A search that began with `start` visited and has yet to go up from `pending`. It goes up from
what is `near`, and from all `roots`. -/
structure Sweep (g : Graph) (p : Procedure) (o : Oracle) (q : Query) (target : Access)
    (near roots : Access → Prop) (start pending visited : List Access) (reached : Bool) : Prop where
  distinct : visited.Nodup
  inside : ∀ a ∈ visited, a.index < g.nodes.size
  kept : ∀ a ∈ start, a ∈ visited
  waiting : ∀ a ∈ pending, near a
  entered : ∀ a, roots a → a ∈ visited ∨ a ∈ pending
  settled : ∀ a ∈ visited, a ∈ start ∨
    g.Settled p o q target reached (fun v => v ∈ visited ∨ v ∈ pending) a

/-- Whether a route up from `phi` comes to `a` before it comes to `target`. -/
def Near (g : Graph) (phi target a : Access) : Prop :=
  g.Under target a ∧ ∃ route, Route g.Above phi a (route ++ [a]) ∧ target ∉ route

/-- A round for `phi`. Every path that is to be gone on with began there. -/
structure Exploring (g : Graph) (p : Procedure) (o : Oracle) (q : Query) (phi target : Access)
    (round : Nat) (start : List Access) (pending : List Branch) (x : Exploration) : Prop extends
    g.Sweep p o q target (g.Near phi target) (g.Above phi) start
    (pending.map Branch.start) x.visited (!x.paused.isEmpty) where
  ended : x.ended = []
  begun : ∀ branch ∈ pending, outset round phi branch.legs = .ok phi

namespace Wired

variable (h : g.Wired p entry)
include h

theorem under_above (under : g.Under target a) (apart : a ≠ target) (up : g.Above a c) :
    g.Under target c := by
  obtain ⟨l, stack, member⟩ := under
  obtain ⟨l', stack', sub⟩ := h.stack_above stack up
  exact ⟨l', stack', sub.subset ((List.mem_cons.mp member).resolve_left (Ne.symm apart))⟩

theorem under_trans (first : g.Under phi a) (second : g.Under target phi) : g.Under target a := by
  obtain ⟨l, stack, member⟩ := first
  obtain ⟨l', stack', member'⟩ := second
  obtain ⟨before, after, same⟩ := List.append_of_mem member
  obtain rfl := h.stack_unique (same ▸ stack).suffix stack'
  exact ⟨l, stack, same ▸ List.mem_append_right _ member'⟩

end Wired

theorem Settled.mono {reached reached' : Bool} {known known' : Access → Prop}
    (settled : g.Settled p o q target reached known a) (more : reached = true → reached' = true)
    (sub : ∀ v, known v → known' v) : g.Settled p o q target reached' known' a := by
  obtain ⟨l, before, x, after, stack, same, silent, below, ends⟩ := settled
  exact ⟨l, before, x, after, stack, same, silent, below,
    ends.imp (And.imp_right more) (And.imp_right fun all v up => sub v (all v up))⟩

namespace Sweep

variable {near roots : Access → Prop} {pending visited : List Access} {reached : Bool}

theorem visit (sweep : g.Sweep p o q target near roots start pending visited reached)
    (more : List Access) (next : pending.dropWhile visited.contains = a :: rest) {reached' : Bool}
    (grows : reached = true → reached' = true) (live : a.index < g.nodes.size)
    (settled : g.Settled p o q target reached' (fun v => v ∈ a :: visited ∨ v ∈ more ++ rest) a)
    (waiting : ∀ a ∈ more, near a) :
    g.Sweep p o q target near roots start (more ++ rest) (a :: visited) reached' := by
  obtain ⟨front, rfl, seen, fresh⟩ := dropWhile_eq_cons next
  have kept : ∀ v, v ∈ visited ∨ v ∈ front ++ a :: rest → v ∈ a :: visited ∨ v ∈ more ++ rest := by
    intro v either
    have old : ∀ v ∈ front, v ∈ visited := fun v member => by simpa using seen v member
    simp only [List.mem_append, List.mem_cons] at either ⊢
    rcases either with before | early | rfl | later
    · exact .inl (.inr before)
    · exact .inl (.inr (old v early))
    · exact .inl (.inl rfl)
    · exact .inr (.inr later)
  exact {
    distinct := List.nodup_cons.mpr ⟨by simpa using fresh, sweep.distinct⟩
    inside := List.forall_mem_cons.mpr ⟨live, sweep.inside⟩
    kept := fun v member => List.mem_cons_of_mem _ (sweep.kept v member)
    waiting := by
      intro v member
      rcases List.mem_append.mp member with new | old
      · exact waiting v new
      · exact sweep.waiting v (List.mem_append_right _ (List.mem_cons_of_mem _ old))
    entered := fun v root => kept v (sweep.entered v root)
    settled := by
      refine List.forall_mem_cons.mpr ⟨.inr settled, fun v member => ?_⟩
      exact (sweep.settled v member).imp_right fun old => old.mono grows kept }

theorem finish (sweep : g.Sweep p o q target near roots start pending visited reached)
    (none : pending.dropWhile visited.contains = []) :
    g.Sweep p o q target near roots start [] visited reached := by
  have seen : ∀ v ∈ pending, v ∈ visited := fun v member => by
    simpa using List.dropWhile_eq_nil_iff.mp none v member
  have kept : ∀ v, v ∈ visited ∨ v ∈ pending → v ∈ visited ∨ v ∈ [] :=
    fun v either => .inl (either.elim id (seen v))
  exact { sweep with
    waiting := by simp
    entered := fun v root => kept v (sweep.entered v root)
    settled := fun v member => (sweep.settled v member).imp_right fun old => old.mono id kept }

theorem length_le (sweep : g.Sweep p o q target near roots start pending visited reached) :
    visited.length ≤ g.nodes.size :=
  Entity.length_le sweep.distinct sweep.inside

end Sweep

theorem Linked.length_lt_walkBound (h : g.Linked p entry) (stack : g.Stack (a :: l)) :
    l.length < g.walkBound := by
  have := h.length_stack_le stack
  rw [List.length_cons] at this
  rw [walkBound]
  omega

theorem starts_dropWhile {pending rest : List Branch} {visited : List Access}
    (next : (pending.dropWhile fun branch => visited.contains branch.start) = rest) :
    (pending.map Branch.start).dropWhile visited.contains = rest.map Branch.start := by
  rw [← next]
  exact List.dropWhile_map

namespace Exploring

variable {legs : List Leg} {left : List Branch}

theorem begun_left (exploring : g.Exploring p o q phi target round start pending x)
    (next : (pending.dropWhile fun branch => x.visited.contains branch.start) = ⟨a, legs⟩ :: left) :
    outset round phi legs = .ok phi ∧ ∀ branch ∈ left, outset round phi branch.legs = .ok phi := by
  have kept : ∀ branch ∈ ⟨a, legs⟩ :: left, outset round phi branch.legs = .ok phi :=
    fun branch member => exploring.begun branch ((List.dropWhile_suffix _).subset (next ▸ member))
  exact List.forall_mem_cons.mp kept

theorem pause (exploring : g.Exploring p o q phi target round start pending x)
    (next : (pending.dropWhile fun branch => x.visited.contains branch.start) = ⟨a, legs⟩ :: left)
    (live : a.index < g.nodes.size) (settled : g.Settled p o q target true (fun _ => False) a) :
    g.Exploring p o q phi target round start left
    ⟨a :: x.visited, x.ended, x.paused ++ [legs]⟩ where
  toSweep := exploring.visit [] (starts_dropWhile next) (by simp) live
    (settled.mono (by simp) fun _ => False.elim) (by simp)
  ended := exploring.ended
  begun := (exploring.begun_left next).2

theorem fork {y : Access} {values : List Access}
    (exploring : g.Exploring p o q phi target round start pending x)
    (next : (pending.dropWhile fun branch => x.visited.contains branch.start) = ⟨a, legs⟩ :: left)
    (live : a.index < g.nodes.size) (settled : g.Settled p o q target false (· ∈ values) a)
    (near : ∀ v ∈ values, g.Near phi target v) :
    g.Exploring p o q phi target round start
      ((values.map (Branch.mk · (⟨round, y⟩ :: legs))).reverse ++ left)
      ⟨a :: x.visited, x.ended, x.paused⟩ where
  toSweep := by
    have sweep := exploring.visit values.reverse (starts_dropWhile next) id live
      (settled.mono (fun never => by cases never) fun v inside => .inr (by simp [inside]))
      (fun v inside => near v (by simpa using inside))
    simpa [Function.comp_def] using sweep
  ended := exploring.ended
  begun := by
    obtain ⟨began, kept⟩ := exploring.begun_left next
    intro branch inside
    rcases List.mem_append.mp inside with new | old
    · obtain ⟨v, _, rfl⟩ := List.mem_map.mp (List.mem_reverse.mp new)
      exact (outset_within ..).trans began
    · exact kept branch old

end Exploring

/-- A round comes to an end. It meets a clobber, or it has gone up from everything. -/
theorem Linked.explore_yields (h : g.Linked p entry) (answers : o.Answers p q) : ∀ fuel pending x,
    g.nodes.size < fuel + x.visited.length → g.Exploring p o q phi target round start pending x →
    ∃ result, g.Yields (g.explore p o q target round fuel pending x) result ∧
      ((∃ legs, result = .blocked legs ∧ outset round phi legs = .ok phi) ∧
        ¬g.CleanTo p o q target phi ∨
        ∃ x', result = .over x' ∧ g.Exploring p o q phi target round start [] x') := by
  intro fuel
  induction fuel with
  | zero =>
      intro pending x enough exploring
      have := exploring.length_le
      omega
  | succ fuel ih =>
      intro pending x enough exploring
      rw [explore]
      cases next : pending.dropWhile fun branch => x.visited.contains branch.start with
      | nil =>
          exact ⟨.over x, .pure _,
            .inr ⟨x, rfl, exploring.finish (starts_dropWhile next), exploring.ended,
            by simp⟩⟩
      | cons branch rest =>
          obtain ⟨a, legs⟩ := branch
          obtain ⟨front, here, _, _⟩ := dropWhile_eq_cons (starts_dropWhile next)
          obtain ⟨⟨l, stack, below⟩, route, up, clear⟩ := exploring.waiting a (here ▸ by simp)
          obtain ⟨before, y, after, stop, whole, walked, passed, stops⟩ :=
            h.walkUp_stops answers (some target) stack (h.length_lt_walkBound stack)
          have silent : ∀ z ∈ before, g.Silent p o q z := fun z member => (passed z member).2
          have missed : target ∉ before := fun member => (passed target member).1 rfl
          have ahead : target ∈ y :: after :=
            (List.mem_append.mp (whole ▸ below)).resolve_left missed
          have walk : Route g.Above phi y (route ++ (before ++ [y])) := by
            have above := stack.walk whole silent
            obtain ⟨tail, same⟩ := above.begins
            rw [same] at above ⊢
            exact up.join above
          obtain ⟨_, found, _⟩ := h.kind_of_stack stack List.mem_cons_self
          have live := lt_of_node? found
          have more : g.nodes.size < fuel + (a :: x.visited).length := by
            rw [List.length_cons]
            omega
          cases stop with
          | target =>
              obtain rfl := Option.some.inj stops
              obtain ⟨result, yields, ends⟩ := ih rest _ more (exploring.pause next live
                ⟨l, before, target, after, stack, whole, silent, ahead, .inl ⟨rfl, rfl⟩⟩)
              exact ⟨result, .lift walked yields, ends⟩
          | phi y =>
              obtain ⟨rfl, apart, n, isPhi⟩ := stops
              obtain ⟨values, incoming, member⟩ := reachableIncoming_eq isPhi.1 isPhi.2
              have other : target ≠ y := fun same => apart (congrArg some same)
              have under : g.Under target y := ⟨after, (whole ▸ stack).suffix, ahead⟩
              have near : ∀ v ∈ values, g.Near phi target v := by
                intro v inside
                have step := (member v).mp inside
                exact ⟨h.under_above under other.symm step, _, walk.snoc step,
                  by simp [clear, missed, other]⟩
              obtain ⟨result, yields, ends⟩ := ih _ _ more (exploring.fork next live
                ⟨l, before, y, after, stack, whole, silent, ahead,
                  .inr ⟨⟨n, isPhi⟩, fun v up => (member v).mpr up⟩⟩ near)
              exact ⟨result, .lift walked (.lift incoming yields), ends⟩
          | clobber y =>
              obtain ⟨rfl, apart, kills⟩ := stops
              have other : target ≠ y := fun same => apart (congrArg some same)
              -- The target is further on the stack, so the clobber does not dominate it.
              have stack' := (whole ▸ stack).suffix
              have precedes := h.over_of_stack stack' ((List.mem_cons.mp ahead).resolve_left other)
              obtain ⟨_, found', _⟩ := h.kind_of_stack stack' List.mem_cons_self
              have missing := (h.dominates_over precedes (by rw [found']; rfl)).2
              have began := (exploring.begun_left next).1
              refine ⟨.blocked (⟨round, y⟩ :: legs), .lift walked (.bind missing (.pure _)),
                .inl ⟨⟨_, rfl, (outset_within ..).trans began⟩, fun clean => ?_⟩⟩
              exact clean y _ walk (by simp [clear, missed, other]) kills

/-- Past a phi a route goes on from one of the values that flow into it. -/
theorem not_kills_through {y : Access} (found : g.node? y = some n) (isPhi : n.isPhi = true)
    (up : Route g.Above y c (y :: route))
    (later : ∀ v, g.Above y v → Route g.Above v c route → ¬g.Kills p o q c) : ¬g.Kills p o q c := by
  cases up with
  | here => exact not_kills_of_isPhi found isPhi
  | step first rest => exact later _ first rest

/-- A round that is over has met no clobber before the target on any route from what it visited, nor
on any route from the phi. -/
theorem Exploring.clean (done : g.Exploring p o q phi target round start [] x)
    (found : g.node? phi = some n) (isPhi : n.isPhi = true)
    (before : ∀ v ∈ start, g.CleanTo p o q phi v) :
    (∀ v ∈ x.visited, g.CleanTo p o q target v) ∧ g.CleanTo p o q target phi := by
  have entered : ∀ v, g.Above phi v → v ∈ x.visited := fun v up => by simpa using done.entered v up
  have visited : ∀ v ∈ x.visited, g.CleanTo p o q target v := by
    intro v member c route up missed
    induction size : route.length using Nat.strongRecOn generalizing v route with
    | _ size ih =>
        -- The route is cut at the phi, or at the phi where the walk from `v` stopped.
        have cut : ∀ {y : Access} {m : Node}, g.node? y = some m → m.isPhi = true → y ∈ route →
            (∀ v, g.Above y v → v ∈ x.visited) → ¬g.Kills p o q c := by
          intro y m found isPhi passes known
          obtain ⟨front, back, rfl⟩ := List.append_of_mem passes
          simp only [List.mem_append, List.mem_cons, not_or] at missed
          simp only [List.length_append, List.length_cons] at size
          refine not_kills_through found isPhi up.split.2 fun w above rest => ?_
          exact ih back.length (by omega) w (known w above) back rest missed.2.2 rfl
        rcases done.settled v member with old | ⟨l, front, y, after, stack, whole, silent, _, ends⟩
        · by_cases passes : phi ∈ route
          · exact cut found isPhi passes entered
          · exact before v old c route up passes
        · by_cases passes : y ∈ route
          · rcases ends with ⟨rfl, _⟩ | ⟨⟨m, found', isPhi'⟩, known⟩
            · exact absurd passes missed
            · exact cut found' isPhi' passes fun w above => by simpa using known w above
          · exact (silent c (stack.mem_of_route whole silent up passes)).not_kills
  refine ⟨visited, fun c route up missed => ?_⟩
  obtain ⟨tail, rfl⟩ := up.begins
  refine not_kills_through found isPhi up fun v above rest => ?_
  exact visited v (entered v above) c tail rest fun later => missed (List.mem_cons_of_mem _ later)

theorem Exploring.reached_target (h : g.Linked p entry)
    (done : g.Exploring p o q phi target round start [] x) (found : g.node? phi = some n)
    (isPhi : n.isPhi = true) (below : ∀ v ∈ start, g.Under phi v) : x.paused.isEmpty = false := by
  by_contra unreached
  -- Otherwise the blocks on a way to the phi that does not come to its block before would have phis
  -- ever nearer to the entry.
  have descend : ∀ size (way : List Block) (y : Access) (m : Node), way.length = size →
      Route g.flow.Edge entry m.block (way ++ [m.block]) → n.block ∉ way → g.node? y = some m →
      m.isPhi = true → (∀ v, g.Above y v → v ∈ x.visited) → False := by
    intro size
    induction size using Nat.strongRecOn with
    | _ size ih =>
        intro way y m length arrives clear found' isPhi' known
        obtain ⟨pred, toPred, _, up⟩ := h.phi_pred h.first found' isPhi' arrives
        have reached : Reaches g.flow.Edge entry pred := ⟨way, toPred⟩
        rcases done.settled _ (known _ up) with old | ⟨l, front, z, after, stack, whole, _, _, ends⟩
        · obtain ⟨l, stack, member⟩ := below _ old
          rw [h.stack_reachOut reached stack] at member
          obtain ⟨n', found'', _, dom⟩ := (h.mem_stackOut reached).mp member
          obtain rfl := Option.some.inj (found.symm.trans found'')
          exact clear (dom way toPred)
        · obtain ⟨⟨k, foundZ, isPhiZ⟩, known'⟩ :=
            ends.resolve_left fun hit => unreached (by simpa using hit.2)
          have member : z ∈ g.stackOut pred := by
            rw [← h.stack_reachOut reached stack, whole]
            exact List.mem_append_right _ List.mem_cons_self
          obtain ⟨k', foundZ', _, dom⟩ := (h.mem_stackOut reached).mp member
          obtain rfl := Option.some.inj (foundZ.symm.trans foundZ')
          obtain ⟨first, second, rfl⟩ := List.append_of_mem (dom way toPred)
          simp only [List.mem_append, not_or] at clear
          simp only [List.length_append, List.length_cons] at length
          exact ih first.length (by omega) first z k rfl toPred.split.1 clear.1 foundZ isPhiZ
            fun v above => by simpa using known' v above
  obtain ⟨way, arrives⟩ := h.phi_reached found isPhi
  obtain ⟨first, second, rfl, clear⟩ := List.eq_append_cons_of_mem arrives.finish_mem
  exact descend _ first phi n rfl arrives.split.1 clear found isPhi fun v up => by
    simpa using done.entered v up

theorem Exploring.under (h : g.Linked p entry)
    (exploring : g.Exploring p o q phi target round start pending x)
    (stack : g.Stack (phi :: target :: l)) (below : ∀ v ∈ start, g.Under phi v) :
    ∀ v ∈ x.visited, g.Under target v := by
  intro v member
  rcases exploring.settled v member with old | ⟨l, front, y, after, stack', whole, _, ahead, _⟩
  · exact h.under_trans (below v old) ⟨_, stack, List.mem_cons_of_mem _ List.mem_cons_self⟩
  · exact ⟨l, stack', whole ▸ List.mem_append_right _ ahead⟩

theorem targetOf_eq (found : g.node? phi = some n) : g.targetOf phi = .ok (g.reachIn n.block) := by
  rw [targetOf, node_eq found]
  rfl

theorem IsClobber.append {front stack : List Access} (passable : ∀ a ∈ front, g.Passable p o q a)
    (clobber : g.IsClobber p o q stack c) : g.IsClobber p o q (front ++ stack) c := by
  obtain ⟨before, after, rfl, passed, stops⟩ := clobber
  refine ⟨front ++ before, after, by simp, fun a member => ?_, stops⟩
  exact (List.mem_append.mp member).elim (passable a) (passed a)

theorem mem_branches {v : Access} {values : List Access} {paths : List (List Leg)}
    (some_path : paths ≠ []) :
    v ∈ ((paths.flatMap fun legs => values.map (Branch.mk · (⟨round, phi⟩ :: legs))).reverse).map
      Branch.start ↔ v ∈ values := by
  obtain ⟨legs, rest, rfl⟩ := List.exists_cons_of_ne_nil some_path
  simp only [List.map_reverse, List.mem_reverse, List.map_flatMap, List.map_map, Function.comp_def,
    List.map_id', List.mem_flatMap, List.mem_cons]
  constructor
  · rintro ⟨_, _, member⟩
    exact member
  · exact fun member => ⟨legs, .inl rfl, member⟩

theorem Linked.exploring_start (h : g.Linked p entry) (round : Nat) {values : List Access}
    (stack : g.Stack (phi :: target :: l)) (ended : x.ended = []) (some_path : x.paused ≠ [])
    (distinct : x.visited.Nodup) (inside : ∀ a ∈ x.visited, a.index < g.nodes.size)
    (incoming : ∀ v, v ∈ values ↔ g.Above phi v) :
    g.Exploring p o q phi target (round + 1) x.visited
      (x.paused.flatMap fun legs => values.map (Branch.mk · (⟨round, phi⟩ :: legs))).reverse
      { x with paused := [] } where
  ended
  distinct
  inside
  kept _ member := member
  waiting v member := by
    have up := (incoming v).mp ((mem_branches some_path).mp member)
    obtain ⟨l', stack', sub⟩ := h.stack_above stack up
    refine ⟨⟨l', stack', sub.subset List.mem_cons_self⟩, [phi], .step up (.here v), ?_⟩
    exact fun same => (h.over_of_stack stack List.mem_cons_self).ne (List.mem_singleton.mp same)
  entered v up := .inr ((mem_branches some_path).mpr ((incoming v).mpr up))
  settled _ member := .inl member
  begun branch member := by
    obtain ⟨legs, _, inside⟩ := List.mem_flatMap.mp (List.mem_reverse.mp member)
    obtain ⟨v, _, rfl⟩ := List.mem_map.mp inside
    exact outset_next ..

theorem CleanTo.walk {before after : List Access} {y : Access} (clean : g.CleanTo p o q target a)
    (stack : g.Stack (target :: l)) (whole : target :: l = before ++ y :: after)
    (silent : ∀ z ∈ before, g.Silent p o q z) : g.CleanTo p o q y a := by
  intro c route up missed
  by_cases passes : target ∈ route
  · obtain ⟨first, second, rfl⟩ := List.append_of_mem passes
    have later : y ∉ target :: second := fun member => missed (List.mem_append_right _ member)
    exact (silent c (stack.mem_of_route whole silent up.split.2 later)).not_kills
  · exact clean c route up passes

theorem lowest_replicate (count : Nat) : g.Yields (g.lowest a (List.replicate count a)) a := by
  induction count with
  | zero => exact .pure _
  | succ count ih =>
      rw [lowest, List.replicate_succ, List.foldlM_cons]
      exact .bind (.bind Arranged.dominates_self (.pure _)) ih

/-- All paths that came to the target walk up from there alike. -/
theorem gather_eq {stop : Stop} (walked : g.walkUp p o q none g.walkBound target = .ok stop)
    (ended : x.ended = []) : g.gather p o q target x = .ok
      ((List.replicate x.paused.length stop).filterMap Stop.clobber?,
        ((List.replicate x.paused.length stop).filterMap Stop.phi?).getLast?) := by
  have stops : (x.paused.mapM fun _ => g.walkUp p o q none g.walkBound target) =
      .ok (List.replicate x.paused.length stop) := by
    rw [walked, ← List.map_const']
    exact List.mapM_pure
  rw [gather, stops, ok_bind, ended]
  rfl

theorem gather_clobber (walked : g.walkUp p o q none g.walkBound target = .ok (.clobber c))
    (ended : x.ended = []) (arrived : x.paused ≠ []) :
    ∃ count, g.gather p o q target x = .ok (c :: List.replicate count c, none) := by
  obtain ⟨count, length⟩ := Nat.exists_eq_succ_of_ne_zero (List.length_pos_of_ne_nil arrived).ne'
  refine ⟨count, ?_⟩
  rw [gather_eq walked ended, length, List.filterMap_replicate_of_some (f := Stop.clobber?) rfl,
    List.filterMap_replicate_of_none rfl]
  rfl

theorem gather_phi (walked : g.walkUp p o q none g.walkBound target = .ok (.phi phi))
    (ended : x.ended = []) (arrived : x.paused ≠ []) :
    g.gather p o q target x = .ok ([], some phi) := by
  rw [gather_eq walked ended, List.filterMap_replicate_of_none rfl,
    List.filterMap_replicate_of_some (f := Stop.phi?) rfl, List.getLast?_replicate,
    if_neg (List.length_pos_of_ne_nil arrived).ne']

/-- The rounds of a search from a phi come to the first access on its stack that is not passed
over. -/
theorem Linked.lookThrough_yields (h : g.Linked p entry) (answers : o.Answers p q) :
    ∀ fuel round phi n l x, g.Stack (phi :: l) → g.node? phi = some n → n.isPhi = true →
    l.length < fuel → x.ended = [] → x.paused ≠ [] → x.visited.Nodup →
    (∀ v ∈ x.visited, v.index < g.nodes.size) →
    (∀ v ∈ x.visited, g.CleanTo p o q phi v ∧ g.Under phi v) →
    ∃ c, g.Yields (g.lookThrough p o q fuel round phi x) c ∧ g.IsClobber p o q (phi :: l) c := by
  intro fuel
  induction fuel with
  | zero => exact fun _ _ _ _ _ _ _ _ enough => absurd enough (Nat.not_lt_zero _)
  | succ fuel ih =>
      intro round phi n l x stack found isPhi enough ended some_path distinct inside visited
      obtain ⟨l, rfl, below⟩ := h.stack_phi stack found isPhi
      obtain ⟨values, incoming, member⟩ := reachableIncoming_eq found isPhi
      obtain ⟨result, explored, outcome⟩ := h.explore_yields answers g.walkBound _ _
        (by simp only [walkBound]; omega)
        (h.exploring_start round stack ended some_path distinct inside member)
      rw [lookThrough]
      rcases outcome with ⟨⟨legs, rfl, began⟩, dirty⟩ | ⟨x', rfl, done⟩
      · refine ⟨phi, .lift incoming (.lift (targetOf_eq found) (.bind explored ?_)), [], _, rfl,
          by simp, ?_⟩
        · simp only [began]
          exact .pure _
        · rintro (⟨m, found', isDefinition, _⟩ | ⟨m, found', _, clean⟩)
          · exact not_phi_of_definition found' isDefinition found isPhi
          · obtain rfl := Option.some.inj (found.symm.trans found')
            exact dirty clean
      · have reached := done.reached_target h found isPhi fun v old => (visited v old).2
        obtain ⟨clean, through⟩ := done.clean found isPhi fun v old => (visited v old).1
        obtain ⟨before, y, after, stop, whole, walked, passed, stops⟩ :=
          h.walkUp_stops answers none below (h.length_lt_walkBound below)
        have silent : ∀ z ∈ before, g.Silent p o q z := fun z inside => (passed z inside).2
        have front : ∀ z ∈ phi :: before, g.Passable p o q z := List.forall_mem_cons.mpr
          ⟨.inr ⟨n, found, isPhi, through⟩, fun z inside => .inl (silent z inside)⟩
        have arrived : x'.paused ≠ [] := by simpa using reached
        rw [whole, ← List.cons_append]
        -- The phi is passed over, and so is what the walk from the target passes.
        cases stop with
        | clobber y =>
            obtain ⟨rfl, _, kills⟩ := stops
            refine ⟨y, .lift incoming (.lift (targetOf_eq found) (.bind explored ?_)),
              .append front ⟨[], after, rfl, by simp, kills.not_passable⟩⟩
            obtain ⟨count, gathered⟩ := gather_clobber walked done.ended arrived
            simp only [reached]
            exact .lift gathered (lowest_replicate count)
        | phi y =>
            obtain ⟨rfl, _, m, found', isPhi'⟩ := stops
            have under : g.Under y (g.reachIn n.block) :=
              ⟨l, below, whole ▸ List.mem_append_right _ List.mem_cons_self⟩
            have shorter : after.length < fuel := by
              have := congrArg List.length whole
              simp only [List.length_append, List.length_cons] at this enough
              omega
            obtain ⟨c, yields, clobber⟩ :=
              ih (round + 1) y m after x' (whole ▸ below).suffix found' isPhi'
                shorter done.ended arrived done.distinct done.inside fun v inside =>
                  ⟨(clean v inside).walk below whole silent, h.under_trans
                    (done.under h stack (fun v old => (visited v old).2) v inside) under⟩
            refine ⟨c, .lift incoming (.lift (targetOf_eq found) (.bind explored ?_)),
              clobber.append front⟩
            simp only [reached]
            refine .lift (gather_phi walked done.ended arrived) (.lift (node_eq found') ?_)
            rwa [if_pos isPhi']
        | target => cases stops

end Graph

end MemoryFlow
