import TypeAtlas.Proofs.Closure.Assembly
import TypeAtlas.Proofs.Closure.Reachability
import TypeAtlas.Proofs.Closure.Searches

/-!
# How long a traversal takes

The loops of a traversal grow what they work off: a walk queues the types that it finds, a search
stacks references again and again, and the tree is put together from a stack of its own. All of them
come to an end. A walk queues each type once and asks once at most for its references, so it takes
one turn for the root and one for each type that it finds.

Main statement: `TypeIndex.traversal_ends`.
-/

namespace TypeAtlas

namespace Walk

/-- What a turn of a walk does. -/
structure Turn where
  /-- The type that leaves the queue, with its distance. -/
  taken : TypeName × Nat
  /-- Whether its direct references are asked for. -/
  asked : Bool
  /-- The types that join the queue, with their distances. -/
  queued : List (TypeName × Nat)
  deriving Repr, DecidableEq

/-- How often a type is queued by a walk. The root is queued before the first turn. -/
def queuings (root : TypeName) (turns : List Turn) (t : TypeName) : Nat :=
  (root :: (turns.flatMap Turn.queued).map Prod.fst).count t

/-- How often the direct references of a type are asked for. -/
def askings (turns : List Turn) (t : TypeName) : Nat :=
  turns.countP fun turn => turn.asked && turn.taken.1 == t

end Walk

namespace Context

/-! ## §1 The turns of a walk -/

/-- A turn of a walk from `root` within a session: the next type leaves the queue, and is passed
    over, expanded, or given up. No turn gives up the root. -/
inductive Looks (ctx : Context Unit) (root : TypeName) (bound : Bound) :
    Walk × Session Unit → Walk.Turn → Walk × Session Unit → Prop where
  /-- Beyond the bound nothing is asked. -/
  | passed {w : Walk} {s : Session Unit} {t : TypeName} {k : Nat} {rest : List (TypeName × Nat)} :
      w.queue = (t, k) :: rest → bound.admits k = false →
      Looks ctx root bound (w, s) ⟨(t, k), false, []⟩ (w.pass, s)
  /-- The references of the type are told, and some of them may join the queue. -/
  | expanded {w : Walk} {s s' : Session Unit} {t : TypeName} {k : Nat}
      {rest queued : List (TypeName × Nat)} {rs : NameSet} :
      w.queue = (t, k) :: rest → bound.admits k = true →
      (ctx.directReferences t).run s = (.ok rs, s') → (w.expand t k rs).queue = rest ++ queued →
      Looks ctx root bound (w, s) ⟨(t, k), true, queued⟩ (w.expand t k rs, s')
  /-- The references of the type are not told, because it cannot be described. -/
  | givenUp {w : Walk} {s s' : Session Unit} {t n : TypeName} {k : Nat}
      {rest : List (TypeName × Nat)} :
      w.queue = (t, k) :: rest → bound.admits k = true →
      (ctx.directReferences t).run s = (.error (.unresolved n), s') → t ≠ root →
      Looks ctx root bound (w, s) ⟨(t, k), true, []⟩
        (w.giveUp t, { s' with log := s'.log ++ [.skippingNeighbour t (w.parent? t)] })

variable {ctx : Context Unit} {root : TypeName} {bound : Bound} {m m' m'' : Walk × Session Unit}
  {turn turn' : Walk.Turn} {turns : List Walk.Turn}

namespace Looks

theorem exists_queue (h : ctx.Looks root bound m turn m') :
    ∃ rest, m.1.queue = turn.taken :: rest := by
  cases h with
  | passed hq _ => exact ⟨_, hq⟩
  | expanded hq _ _ _ => exact ⟨_, hq⟩
  | givenUp hq _ _ _ => exact ⟨_, hq⟩

/-- The queue is first in, first out. -/
theorem queue_append (h : ctx.Looks root bound m turn m') :
    m.1.queue ++ turn.queued = turn.taken :: m'.1.queue := by
  cases h with
  | passed hq _ => simp [Walk.pass, hq]
  | expanded hq _ _ hqueue => simp [hq, hqueue]
  | givenUp hq _ _ _ => simp [Walk.giveUp, Walk.pass, hq]

/-- What joins the queue has just been found. -/
theorem depths_eq (h : ctx.Looks root bound m turn m') :
    m'.1.depths = m.1.depths ++ turn.queued := by
  cases h with
  | passed _ _ => simp [Walk.pass]
  | expanded hq _ _ hqueue =>
    -- both lists are extended by the same types
    rw [Walk.expand_eq, hq, List.tail_cons] at hqueue
    rw [Walk.expand_eq, List.append_cancel_left hqueue]
  | givenUp _ _ _ _ => simp [Walk.giveUp, Walk.pass]

theorem asked_eq (h : ctx.Looks root bound m turn m') :
    turn.asked = bound.admits turn.taken.2 := by
  cases h with
  | passed _ hk => exact hk.symm
  | expanded _ hk _ _ => exact hk.symm
  | givenUp _ hk _ _ => exact hk.symm

/-- A turn is a step of the walk. -/
theorem run_walkStep (h : ctx.Looks root bound m turn m') :
    (ctx.walkStep root bound m.1 turn.taken.1 turn.taken.2).run m.2 = (.ok m'.1, m'.2) := by
  unfold walkStep
  cases h with
  | passed _ hk =>
    rw [if_neg (by simp [hk])]
    rfl
  | @expanded w s s' t k rest queued rs _ hk hrun _ =>
    have htold : (Run.orUnresolved (ctx.directReferences t)).run s = (.ok (.ok rs), s') := by
      rw [Run.run_orUnresolved, hrun]
      rfl
    rw [if_pos hk, Asking.run_bind_of_ok htold]
    rfl
  | @givenUp w s s' t n k rest _ hk hrun hne =>
    have htold : (Run.orUnresolved (ctx.directReferences t)).run s = (.ok (.error n), s') := by
      rw [Run.run_orUnresolved, hrun]
      rfl
    rw [if_pos hk, Asking.run_bind_of_ok htold]
    simp only [if_neg hne]
    rfl

/-- What a turn does, and what comes of it, is fixed before it. -/
theorem deterministic : Deterministic (ctx.Looks root bound) := by
  intro m turn m' turn' m'' h h'
  -- the queue fixes which type is taken, and the step of the walk what comes of it
  have htaken : turn.taken = turn'.taken := by
    obtain ⟨rest, hq⟩ := h.exists_queue
    obtain ⟨rest', hq'⟩ := h'.exists_queue
    exact (List.cons.inj (hq.symm.trans hq')).1
  have hstate : m' = m'' := by
    have hrun := h.run_walkStep
    rw [htaken, h'.run_walkStep] at hrun
    obtain ⟨hw, hs⟩ := Prod.mk.inj hrun
    exact Prod.ext (Except.ok.inj hw).symm hs.symm
  have hasked : turn.asked = turn'.asked := by rw [h.asked_eq, h'.asked_eq, htaken]
  have hqueued : turn.queued = turn'.queued := by
    have heq : m.1.depths ++ turn.queued = m.1.depths ++ turn'.queued := by
      rw [← h.depths_eq, ← h'.depths_eq, hstate]
    exact List.append_cancel_left heq
  cases turn
  cases turn'
  cases htaken
  cases hasked
  cases hqueued
  exact ⟨rfl, hstate⟩

end Looks

theorem not_looks (hq : m.1.queue = []) (turn : Walk.Turn) (m' : Walk × Session Unit) :
    ¬ ctx.Looks root bound m turn m' := by
  intro h
  obtain ⟨rest, hcons⟩ := h.exists_queue
  rw [hq] at hcons
  cases hcons

/-- From a root that can be described there is a turn as long as the queue holds a type, and what
    comes of it is fixed by the provider. -/
theorem exists_looks (hctx : ctx.Lawful) (hroot : ∃ rs, ctx.refs root = some rs) {w : Walk}
    {s : Session Unit} (hs : ctx.Coherent s) {t : TypeName} {k : Nat}
    {rest : List (TypeName × Nat)} (hq : w.queue = (t, k) :: rest) :
    ∃ turn s', ctx.Looks root bound (w, s) turn (w.look ctx.refs bound t k, s') ∧
      ctx.Coherent s' := by
  unfold Walk.look
  cases hk : bound.admits k with
  | false => exact ⟨_, s, .passed hq hk, hs⟩
  | true =>
    cases ht : ctx.refs t with
    | some rs =>
      obtain ⟨s', hrun, hgained⟩ := (yields_directReferences ht).exists_run hs
      have hqueue : (w.expand t k rs).queue = rest ++ (w.fresh rs).map fun u => (u, k + 1) := by
        rw [Walk.expand_eq, hq, List.tail_cons]
      exact ⟨_, s', .expanded hq hk hrun hqueue, hgained.coherent hs⟩
    | none =>
      obtain ⟨s', hrun, hgained⟩ := (yields_directReferences_unresolved hctx ht).exists_run hs
      have hne : t ≠ root := by
        intro heq
        obtain ⟨rs, hrs⟩ := hroot
        rw [← heq, ht] at hrs
        cases hrs
      refine ⟨_, _, .givenUp hq hk hrun hne, ?_⟩
      -- the notice in the log changes neither cache nor graph
      have hnoted := (yields_note (.skippingNeighbour t (w.parent? t))) s' (hgained.coherent hs)
      exact hnoted.2.coherent (hgained.coherent hs)

/-! ## §2 All turns -/

/-- From a root that can be described a walk takes turns to wherever the run over the references
    that the provider fixes comes. -/
theorem exists_turns (hctx : ctx.Lawful) (hroot : ∃ rs, ctx.refs root = some rs) (bound : Bound)
    (fuel : Nat) (w : Walk) {s : Session Unit} (hs : ctx.Coherent s) :
    ∃ turns s', Turns (ctx.Looks root bound) (w, s) turns (w.run ctx.refs bound fuel, s') := by
  induction fuel generalizing w s with
  | zero => exact ⟨[], s, .stop _⟩
  | succ fuel ih =>
    unfold Walk.run
    cases hq : w.queue with
    | nil => exact ⟨[], s, .stop _⟩
    | cons e rest =>
      obtain ⟨turn, s', hlooks, hs'⟩ := exists_looks hctx hroot hs hq
      obtain ⟨turns, s'', hturns⟩ := ih _ hs'
      exact ⟨turn :: turns, s'', .go hlooks hturns⟩

/-- The fuel of a walk does not show: with as much as the walk takes turns, or more, it comes to
    where the turns lead. -/
theorem run_walk_of_turns (h : Turns (ctx.Looks root bound) m turns m') (hend : m'.1.queue = [])
    {fuel : Nat} (hfuel : turns.length ≤ fuel) :
    (ctx.walk root bound fuel m.1).run m.2 = (.ok m'.1, m'.2) := by
  induction h generalizing fuel with
  | stop m =>
    cases fuel with
    | zero => rfl
    | succ fuel =>
      unfold walk
      rw [hend]
      rfl
  | go hlooks _ ih =>
    -- every turn takes one unit of fuel
    obtain ⟨fuel, rfl⟩ : ∃ n, fuel = n + 1 := ⟨fuel - 1, by simp at hfuel; omega⟩
    obtain ⟨rest, hq⟩ := hlooks.exists_queue
    unfold walk
    rw [hq]
    exact (Asking.run_bind_of_ok hlooks.run_walkStep).trans (ih hend (by simpa using hfuel))

end Context

namespace Walk

section Looked

variable {ctx : Context Unit} {root : TypeName} {bound : Bound} {m m' : Walk × Session Unit}
  {turns : List Turn}

/-- What has been queued leaves the queue in the same order, and is what has been found. -/
theorem queue_append_of_turns (h : Turns (ctx.Looks root bound) m turns m') :
    m.1.queue ++ turns.flatMap Turn.queued = turns.map Turn.taken ++ m'.1.queue ∧
      m'.1.depths = m.1.depths ++ turns.flatMap Turn.queued := by
  induction h with
  | stop m => simp
  | go hlooks _ ih =>
    obtain ⟨hqueue, hdepths⟩ := ih
    simp only [List.flatMap_cons, List.map_cons, List.cons_append, ← hqueue, ← List.append_assoc,
      hlooks.queue_append, hdepths, hlooks.depths_eq, and_self]

theorem asked_of_turns (h : Turns (ctx.Looks root bound) m turns m') :
    ∀ turn ∈ turns, turn.asked = bound.admits turn.taken.2 := by
  induction h with
  | stop m => simp
  | go hlooks _ ih => simpa [hlooks.asked_eq] using ih

/-- A walk that comes to its end has looked at the types in the order in which it found them, and
    has queued just these. -/
theorem map_taken_of_turns {s s' : Session Unit} {w : Walk}
    (h : Turns (ctx.Looks root bound) (start root, s) turns (w, s')) (hend : w.queue = []) :
    turns.map Turn.taken = w.depths ∧ (root, 0) :: turns.flatMap Turn.queued = w.depths := by
  obtain ⟨hqueue, hdepths⟩ := queue_append_of_turns h
  simp only [hend, List.append_nil] at hqueue
  exact ⟨hqueue.symm.trans hdepths.symm, hdepths.symm⟩

end Looked

/-! ## §3 What the turns account for -/

/-- What the turns of a walk account for that came to the exploration `e` to the depth `d`. -/
structure AccountsFor (turns : List Turn) (e : Exploration) (d : Int) : Prop where
  /-- There is one turn for the root, and one for each type reached. -/
  length : turns.length = e.types.size + 1
  /-- The types leave the queue in the order in which they were found. -/
  taken : turns.map Turn.taken = e.depths
  /-- Each of them is queued once, and nothing else is. -/
  queued : ∀ t, queuings e.root turns t = if t = e.root ∨ t ∈ e.types then 1 else 0
  /-- No type is asked for its direct references twice. -/
  asked_le : ∀ t, askings turns t ≤ 1
  /-- Those found within the depth are asked. -/
  asked_iff : ∀ t, askings turns t = 1 ↔ ∃ k : Nat, (t, k) ∈ e.depths ∧ (d = -1 ∨ (k : Int) ≤ d)

namespace Orderly

variable {ctx : Context Unit} {refs : Refs} {root : TypeName} {bound : Bound} {w : Walk}
  {turns : List Turn}

/-- The types found are the root and those reached, each of them once. -/
theorem depths_perm (h : Finished refs root bound w) :
    (w.depths.map Prod.fst).Perm (root :: (reachable w.adjacency root).toList) := by
  have hself : root ∉ (reachable w.adjacency root).toList := fun hmem =>
    (mem_reachable_iff.1 hmem).1 rfl
  apply (List.perm_ext_iff_of_nodup h.distinct
    (List.nodup_cons.2 ⟨hself, OrdSet.nodup_toList _⟩)).2
  intro t
  simp [h.mem_depths_iff_reachable, List.mem_cons (b := root)]

theorem count_depths (h : Finished refs root bound w) (t : TypeName) :
    (w.depths.map Prod.fst).count t =
      if t = root ∨ t ∈ reachable w.adjacency root then 1 else 0 := by
  rw [h.distinct.count]
  simp [h.mem_depths_iff_reachable]

/-- What is asked is what has been found within the bound. -/
theorem askings_eq (hasked : ∀ turn ∈ turns, turn.asked = bound.admits turn.taken.2)
    (t : TypeName) :
    askings turns t = (turns.map Turn.taken).countP fun e => bound.admits e.2 && e.1 == t := by
  unfold askings
  rw [List.countP_map]
  apply List.countP_congr
  intro turn hturn
  simp [hasked turn hturn]

/-- A walk that comes to its end accounts for what it has found. -/
theorem accountsFor (h : Finished refs root bound w) {d : Int} (hb : Bound.ofInt? d = some bound)
    {s s' : Session Unit} (hturns : Turns (ctx.Looks root bound) (start root, s) turns (w, s'))
    (hend : w.queue = []) : AccountsFor turns (w.exploration root bound) d := by
  obtain ⟨htaken, hqueued⟩ := map_taken_of_turns hturns hend
  have hasked := askings_eq (asked_of_turns hturns)
  rw [htaken] at hasked
  -- a type is asked only when it leaves the queue, which it does once
  have hle : ∀ t, askings turns t ≤ 1 := by
    intro t
    calc askings turns t
        = w.depths.countP fun e => bound.admits e.2 && e.1 == t := hasked t
      _ ≤ w.depths.countP fun e => e.1 == t := by
        apply List.countP_mono_left
        intro e _ he
        exact (Bool.and_eq_true_iff.1 he).2
      _ = (w.depths.map Prod.fst).count t := by
        rw [List.count, List.countP_map]
        rfl
      _ ≤ 1 := List.nodup_iff_count_le_one.1 h.distinct t
  refine { length := ?length, taken := htaken, queued := ?queued, asked_le := hle,
           asked_iff := ?asked_iff }
  case length =>
    have hlength := h.depths_perm.length_eq
    rwa [List.length_map, ← htaken, List.length_map] at hlength
  case queued =>
    intro t
    have hcount := h.count_depths t
    rwa [← hqueued, List.map_cons] at hcount
  case asked_iff =>
    intro t
    have hpos : askings turns t = 1 ↔ 0 < askings turns t := by
      have hone := hle t
      omega
    rw [hpos, hasked, List.countP_pos_iff]
    simp [Bound.admits_iff hb, Walk.exploration, and_comm]

end Orderly

end Walk

/-! ## §4 Searches and trees -/

namespace Search

/-- What a search from `start` has done when it has looked at the types in `looks` and come to
    `s`. -/
structure Accounts (adjacency : Adjacency) (start : TypeName) (looks : List Look) (s : Search) :
    Prop where
  /-- It goes on as long as there is something on its stack. -/
  goes_on : s.stack ≠ [] → ∃ look s', Takes adjacency s look s'
  /-- The references of a type have been stacked once at most, and those of the start twice. -/
  stacked : ∀ t, stackings start looks t ≤ if t = start then 2 else 1
  /-- It has taken no more types from the stack than there are recorded references, those of the
      start counted twice. -/
  length : looks.length ≤ (adjacency.map fun e => e.2.size).sum + (adjacency.next start).length

theorem Begins.accounts {adjacency : Adjacency} {start : TypeName} {s s' : Search}
    {looks : List Look} (h : Begins adjacency start s) (hruns : Runs adjacency s looks s') :
    Accounts adjacency start looks s' where
  goes_on := exists_takes
  stacked t := hruns.stackings_le start t
  length := by
    have hle := hruns.length_le h
    rwa [searchFuel, List.length_flatMap] at hle

end Search

/-- The types in `taken` are taken when the tree of `e` is put together, in this order: the root and
    each type reached once. The tree is then that of the exploration. -/
structure Exploration.AssembledBy (e : Exploration) (taken : List TypeName) : Prop where
  once : ∀ t, taken.count t = if t = e.root ∨ t ∈ e.types then 1 else 0
  ends : ∃ a top, EndsAfter e.Takes (.start e.root) taken a ∧ a.stack = [] ∧
    a.lists[0]? = some top ∧ Assembly.Reads a.lists top e.entries

theorem Walk.Orderly.exists_assembledBy {refs : Refs} {root : TypeName} {bound : Bound} {w : Walk}
    (h : Walk.Finished refs root bound w) :
    ∃ taken, (w.exploration root bound).AssembledBy taken := by
  obtain ⟨taken, a, top, hends, hstack, hperm, hassembled⟩ := h.exists_assembly
  refine ⟨taken, { once := ?once, ends := ⟨a, top, hends, hstack, hassembled⟩ }⟩
  case once =>
    intro t
    rw [hperm.count_eq]
    exact h.count_depths t

/-! ## §5 Traversals over an index -/

namespace TypeIndex

/-- In every session that steps lead to, an exploration from a type that can be described comes to
    an end after one turn for the root and one for each type reached; fuel beyond that does not
    show. Each of these types is queued once, and asked for its references once if it is within the
    depth and never if not. A search over any record of references comes to an end as well, and so
    does putting the tree together, which takes the root and each type reached once. -/
theorem traversal_ends (x : TypeIndex) (blind : List TypeName) (config : Config)
    {s : Session Unit} (hs : (x.context blind config).Reached s) {root : TypeName}
    (hroot : x.Describes blind root) {d : Int} (hd : -1 ≤ d) :
    ∃ bound e s', Bound.ofInt? d = some bound ∧
      ((x.context blind config).explore root d).run s = (.ok e, s') ∧
      (∃ turns w s'', EndsAfter ((x.context blind config).Looks root bound) (.start root, s) turns
          (w, s'') ∧
        w.queue = [] ∧ e = w.exploration root bound ∧ Walk.AccountsFor turns e d ∧
        ∀ fuel, turns.length ≤ fuel →
          ((x.context blind config).walk root bound fuel (.start root)).run s = (.ok w, s'')) ∧
      (∀ adjacency start search looks search', Search.Begins adjacency start search →
        Search.Runs adjacency search looks search' →
        Search.Accounts adjacency start looks search') ∧
      ∃ taken, e.AssembledBy taken := by
  have hctx := lawful_context x blind config
  obtain ⟨bound, hb⟩ := Bound.exists_ofInt?_eq_some hd
  obtain ⟨s', hrun, -⟩ := exists_run_explore hs hroot hb
  have hfinished := Context.finished_record hctx root bound
  refine ⟨bound, _, s', hb, hrun, ?_, fun _ _ _ _ _ hbegins hruns => hbegins.accounts hruns,
    hfinished.exists_assembledBy⟩
  -- the walk takes turns to its record, and its queue is empty there
  obtain ⟨turns, s'', hturns⟩ := Context.exists_turns hctx (exists_refs_context_iff.2 hroot) bound
    ((x.context blind config).provider.capacity () + 2) (.start root) (hs.coherent hctx)
  have hend : ((x.context blind config).record root bound).queue = [] :=
    List.self_eq_append_right.1 hfinished.split
  exact ⟨turns, _, s'', hturns.endsAfter Context.Looks.deterministic (Context.not_looks hend), hend,
    rfl, hfinished.accountsFor hb hturns hend, fun fuel hfuel =>
      Context.run_walk_of_turns hturns hend hfuel⟩

/-- Exploring from `A` to the depth zero, where `B` is found and not asked, takes two turns. -/
theorem traversal_ends_ring :
    ∃ e s' turns w s'', ((ring.context ["C"] {}).explore "A" 0).run Session.fresh = (.ok e, s') ∧
      EndsAfter ((ring.context ["C"] {}).Looks "A" (.upTo 0)) (.start "A", Session.fresh) turns
        (w, s'') ∧
      turns.length = 2 ∧ Walk.askings turns "A" = 1 ∧ Walk.queuings "A" turns "B" = 1 ∧
      ∃ taken, e.AssembledBy taken := by
  have hroot : ring.Describes ["C"] "A" := ⟨by decide, by decide⟩
  obtain ⟨bound, e, s', hb, hrun, ⟨turns, w, s'', hends, -, -, haccounts, -⟩, -, hassembled⟩ :=
    traversal_ends ring ["C"] {} ⟨[], rfl⟩ hroot (d := 0) (by decide)
  cases hb
  cases hrun
  exact ⟨_, _, turns, w, s'', rfl, hends, haccounts.length,
    (haccounts.asked_iff "A").2 ⟨0, by decide, by decide⟩, haccounts.queued "B", hassembled⟩

end TypeIndex

end TypeAtlas
