import TypeAtlas.Proofs.Analysis.Gains
import TypeAtlas.Proofs.Closure.Spanning

/-!
# Queries that agree

The metrics of a type, its closure, the tree of the closure, its direct references and its
neighbourhood tell some of the same things, each computed in its own way. Whenever they are asked
in a session, they tell the same. Only the number of entries of the tree is not told if the tree has
more levels than the call stack has room for.

Main statement: `TypeIndex.queries_agree`.
-/

namespace TypeAtlas

open Schema

/-! ## §1 What is next to the root of a walk -/

theorem OrdSet.size_le_of_subset {α : Type} [Ord α] [Std.TransOrd α] [Std.LawfulEqOrd α]
    {s t : OrdSet α} (h : ∀ a ∈ s, a ∈ t) : s.size ≤ t.size :=
  (List.subperm_of_subset (nodup_toList s) h).length_le

namespace Walk

namespace Orderly

variable {refs : Refs} {root : TypeName} {bound : Bound} {w : Walk} {rs : NameSet}

/-- Found through the root are its direct references, unless it references itself. -/
theorem foundThrough_root (h : Finished refs root bound w) (hroot : refs root = some rs)
    (hself : root ∉ rs) : (w.exploration root bound).foundThrough root = rs := by
  apply OrdSet.ext
  intro t
  rw [Exploration.mem_foundThrough_iff]
  apply Iff.intro
  · intro ht
    obtain ⟨rs', hrs', hmem⟩ := h.leads_of_mem_parents ht
    cases hrs'.symm.trans hroot
    exact hmem
  · intro ht
    have hne : t ≠ root := fun heq => hself (heq ▸ ht)
    have hreach : refs.ReachesIn root 1 t := Refs.ReachesIn.refl.tail ⟨rs, hroot, ht⟩
    -- one reference away, it was found through a type that is none away
    obtain ⟨k, hk⟩ := h.mem_depths_iff.2 (.inr ⟨0, bound.admits_zero, hreach⟩)
    have hle := h.shortest hk hreach
    rcases h.eq_root_or_leads hk with ⟨heq, -⟩ | ⟨p, hp⟩
    · exact absurd heq hne
    · obtain ⟨j, -, hj, -, hdepth, -⟩ := h.parent t p hp
      cases h.depth_unique hk hdepth
      obtain rfl : j = 0 := by omega
      cases h.reachesIn hj
      exact hp

/-- The direct references of the root are reached, whatever the bound, unless it references
    itself. -/
theorem mem_reachable_of_mem_refs (h : Finished refs root bound w) (hroot : refs root = some rs)
    (hself : root ∉ rs) {t : TypeName} (ht : t ∈ rs) : t ∈ reachable w.adjacency root := by
  apply h.mem_reachable_root_iff.2
  have hreach : refs.ReachesIn root 1 t := Refs.ReachesIn.refl.tail ⟨rs, hroot, ht⟩
  exact ⟨fun heq => hself (heq ▸ ht), 0, bound.admits_zero, hreach⟩

/-- If only the root is expanded, nothing but its direct references is reached. -/
theorem reachable_upTo_zero (h : Finished refs root (.upTo 0) w) (hroot : refs root = some rs)
    (hself : root ∉ rs) : reachable w.adjacency root = rs := by
  apply OrdSet.ext
  intro t
  apply Iff.intro
  · intro ht
    obtain ⟨-, n, hn, hreach⟩ := h.mem_reachable_root_iff.1 ht
    obtain rfl : n = 0 := by simpa [Bound.admits] using hn
    obtain ⟨u, hu, rs', hrs', hmem⟩ := hreach.exists_last
    cases hu
    cases hrs'.symm.trans hroot
    exact hmem
  · exact h.mem_reachable_of_mem_refs hroot hself

/-- The entries at the top of the tree are those of the direct references of the root, in order. -/
theorem map_type_entries (h : Finished refs root bound w) (hroot : refs root = some rs)
    (hself : root ∉ rs) :
    (w.exploration root bound).entries.map ClosureEntry.type = rs.toList := by
  have htop := h.map_type_of_lists .top
  rw [← h.foundThrough_root hroot hself]
  exact htop

end Orderly

end Walk

/-! ## §2 What is counted -/

/-- The number of arguments that the metrics tell of the first method of the given name: zero if
    there is none. -/
def Metrics.argsOf (m : Metrics) (name : String) : Nat :=
  ((m.methodArgs.find? fun e => e.1 == name).map Prod.snd).getD 0

namespace Context

variable {ctx : Context Unit} {t : TypeName} {rs : NameSet} {m : Metrics}

/-- The number of arguments of a method is the one that the metrics of the type tell. -/
theorem Tallies.yields_methodArgCount (h : ctx.Tallies rs m) (name : String) :
    ctx.Yields (ctx.methodArgCount m.type name) (.ok (m.argsOf name)) ∅ := by
  obtain ⟨ms, hms, hargs⟩ := h.methodArgs
  have hcount : m.argsOf name =
      ((ms.find? fun method => method.name == name).map Method.argCount).getD 0 := by
    rw [Metrics.argsOf, hargs, List.find?_map, Option.map_map]
    rfl
  rw [hcount]
  exact (yields_ask_of_eq hms).orUnresolved.empty_bind (yields_pure _)

/-- A count of types with a modifier is the size of the set of them. -/
theorem exists_size_eq_countP_carries (ctx : Context Unit) (modifier : String) (rs : NameSet) :
    ∃ us : NameSet, us.size = rs.toList.countP (ctx.carries modifier) ∧
      ∀ u, u ∈ us ↔ u ∈ rs ∧ ctx.carries modifier u = true :=
  ⟨rs.filter (ctx.carries modifier), List.countP_eq_length_filter.symm, fun _ => OrdSet.mem_filter⟩

end Context

namespace TypeIndex

variable {x : TypeIndex} {blind : List TypeName} {config : Config}

theorem mem_modifiersOf_iff {d : TypeDecl} {modifier : String} :
    modifier ∈ modifiersOf d ↔ modifier ∈ d.modifiers ∨
      (modifier = "interface" ∨ modifier = "abstract") ∧
        (d.kind = "interface" ∨ d.kind = "annotation") := by
  unfold modifiersOf
  by_cases hkind : d.kind = "interface" ∨ d.kind = "annotation"
  · rw [if_pos hkind, OrdSet.mem_insert, OrdSet.mem_insert, OrdSet.mem_ofList]
    tauto
  · rw [if_neg hkind, OrdSet.mem_ofList]
    tauto

/-- A type that can be described is described with the modifier, or as an interface or an
    annotation, which are interfaces and abstract. -/
def HasModifier (x : TypeIndex) (blind : List TypeName) (modifier : String) (t : TypeName) : Prop :=
  t ∉ blind ∧ ∃ d, x.find? t = some d ∧
    (modifier ∈ d.modifiers ∨ d.kind = "interface" ∨ d.kind = "annotation")

theorem carries_context_iff {modifier : String}
    (hmodifier : modifier = "interface" ∨ modifier = "abstract") {t : TypeName} :
    (x.context blind config).carries modifier t = true ↔ x.HasModifier blind modifier t := by
  unfold Context.carries
  by_cases ht : x.Describes blind t
  · obtain ⟨hblind, d, hd⟩ := describes_iff_exists_find?.1 ht
    have hrun : ((x.context blind config).provider.modifiers t).run () = _ :=
      run_unlessBlind_describing modifiersOf hd hblind
    rw [hrun]
    simp [HasModifier, hblind, hd, mem_modifiersOf_iff, hmodifier]
  · have hrun : ((x.context blind config).provider.modifiers t).run () = _ :=
      run_unlessBlind_describing_of_not modifiersOf ht
    rw [hrun]
    apply iff_of_false Bool.false_ne_true
    intro h
    obtain ⟨hblind, d, hd, -⟩ := h
    exact ht (describes_iff_exists_find?.2 ⟨hblind, d, hd⟩)

/-! ## §3 Queries over an index -/

/-- What the metrics `m` of a type, its direct references `rs`, and its closure `ts` to the depth
    `d` with the tree `c` tell is the same. -/
structure Agree (x : TypeIndex) (blind : List TypeName) (d : Int) (m : Metrics) (rs ts : NameSet)
    (c : ClosureTree) : Prop where
  /-- The indirect associations are the types of the closure, and those of the tree. -/
  indirect : m.indirectAssociations = ts.size
  types : c.types = ts
  told : ∀ stack v, c.toJson? stack = some v →
    v.member? "total" = some (.nat m.indirectAssociations) ∧
    v.member? "types" = some (.strs ts.toList)
  /-- The tree has a JSON form exactly if the call stack has room for its levels. -/
  told_iff : ∀ stack, (∃ v, c.toJson? stack = some v) ↔ c.Fits stack
  /-- The direct associations are the direct references, which are at the top of the tree. -/
  direct : m.directAssociations = rs.size
  top : c.entries.map ClosureEntry.type = rs.toList
  top_length : c.entries.length = m.directAssociations
  /-- They are among the indirect ones, and are all of them at depth zero. -/
  among : ∀ u ∈ rs, u ∈ ts
  le : m.directAssociations ≤ m.indirectAssociations
  eq_of_zero : d = 0 → ts = rs ∧ m.directAssociations = m.indirectAssociations
  /-- Interfaces and abstract types are counted among the direct references. -/
  interfaces : ∃ us : NameSet, us.size = m.interfaceTypes ∧
    ∀ u, u ∈ us ↔ u ∈ rs ∧ x.HasModifier blind "interface" u
  abstracts : ∃ us : NameSet, us.size = m.abstractTypes ∧
    ∀ u, u ∈ us ↔ u ∈ rs ∧ x.HasModifier blind "abstract" u

/-- Metrics agree with the record of a walk to the depth at which they were measured. -/
theorem agree_of_finished {m : Metrics} {rs : NameSet} {bound : Bound} {w : Walk} {d : Int}
    (h : Walk.Finished (x.context blind config).refs m.type bound w)
    (hb : Bound.ofInt? d = some bound) (hrs : (x.context blind config).refs m.type = some rs)
    (hdirect : m.directAssociations = rs.size)
    (hindirect : m.indirectAssociations = (reachable w.adjacency m.type).size)
    (htallies : (x.context blind config).Tallies rs m) :
    x.Agree blind d m rs (reachable w.adjacency m.type)
      (.ofExploration (w.exploration m.type bound)) := by
  have hself : m.type ∉ rs := fun hmem => Context.ne_of_leads ⟨rs, hrs, hmem⟩ rfl
  have hamong : ∀ u ∈ rs, u ∈ reachable w.adjacency m.type :=
    fun u hu => h.mem_reachable_of_mem_refs hrs hself hu
  constructor
  case indirect => exact hindirect
  case types => rfl
  case told =>
    intro stack v hv
    have hreads := (h.spans hb).readsBack (Bound.toInt_of_ofInt? hb)
    cases (ClosureTree.toJson?_eq_some_iff.1 hv).2
    exact ⟨hindirect ▸ hreads.total, hreads.types⟩
  case told_iff => exact fun stack => ClosureTree.exists_toJson?_iff
  case direct => exact hdirect
  case top => exact h.map_type_entries hrs hself
  case top_length =>
    have htop := h.map_type_entries hrs hself
    rw [hdirect, OrdSet.size, ← htop, List.length_map]
    rfl
  case among => exact hamong
  case le =>
    rw [hdirect, hindirect]
    exact OrdSet.size_le_of_subset hamong
  case eq_of_zero =>
    rintro rfl
    have hzero : Bound.ofInt? 0 = some (.upTo 0) := rfl
    cases hzero.symm.trans hb
    rw [hdirect, hindirect, h.reachable_upTo_zero hrs hself]
    exact ⟨rfl, rfl⟩
  case interfaces =>
    have hcount := (x.context blind config).exists_size_eq_countP_carries "interface" rs
    simp only [carries_context_iff (.inl rfl), ← htallies.interfaces] at hcount
    exact hcount
  case abstracts =>
    have hcount := (x.context blind config).exists_size_eq_countP_carries "abstract" rs
    simp only [carries_context_iff (.inr rfl), ← htallies.abstracts] at hcount
    exact hcount

/-- Of a type that can be described there are metrics, direct references, a closure and a tree of it
    that agree, and they are what every session over the index that steps lead to tells, as do the
    neighbourhood of the type and the numbers of arguments of its methods. What the JSON form of the
    tree tells agrees as well, if the call stack has room for the levels of the tree; otherwise
    there is no such form. -/
theorem queries_agree (x : TypeIndex) (blind : List TypeName) (config : Config) {t : TypeName}
    (ht : x.Describes blind t) {d : Int} (hd : -1 ≤ d) {depth : Option Int}
    (hdepth : (x.context blind config).depthOr depth = d) :
    ∃ m rs ts c, x.Agree blind d m rs ts c ∧ ∀ s, (x.context blind config).Reached s →
      (((x.context blind config).metrics t depth).run s).1 = .ok m ∧
      (((x.context blind config).directReferences t).run s).1 = .ok rs ∧
      (((x.context blind config).closure t depth).run s).1 = .ok ts ∧
      (((x.context blind config).closureTree t depth).run s).1 = .ok c ∧
      (∃ n, (((x.context blind config).neighbourhood t).run s).1 = .ok n ∧ n.references = rs ∧
        n.toJson.member? "references" = some (.strs rs.toList)) ∧
      ∀ name, (((x.context blind config).methodArgCount t name).run s).1 = .ok (m.argsOf name) := by
  subst hdepth
  have hctx := lawful_context x blind config
  have hknows := knows_context x blind config
  obtain ⟨bound, hb⟩ := Bound.exists_ofInt?_eq_some hd
  obtain ⟨rs, hrs⟩ : ∃ rs, (x.context blind config).refs t = some rs :=
    exists_refs_context_iff.2 ht
  obtain ⟨m, hmetrics, rfl, ⟨rs', hrs', hdirect, hindirect⟩, htallies⟩ :=
    Context.exists_yields_metrics hctx hknows hrs hb
  cases hrs'.symm.trans hrs
  have hfinished := Context.finished_record hctx m.type bound
  refine ⟨m, rs, _, _, agree_of_finished hfinished hb hrs hdirect hindirect htallies, ?_⟩
  intro s hs
  have hcoherent := hs.coherent hctx
  obtain ⟨s₁, hrun₁, -⟩ := (Context.yields_explore hctx ⟨rs, hrs⟩ hb).exists_run hcoherent
  obtain ⟨s₂, hrun₂, -⟩ := (Context.yields_directReferences hrs).exists_run hcoherent
  refine ⟨?metrics, congrArg Prod.fst hrun₂, ?closure, ?tree, ?neighbourhood, ?methods⟩
  case metrics => exact (hmetrics s hcoherent).1
  case closure => exact congrArg Prod.fst (Asking.run_bind_of_ok hrun₁)
  case tree => exact congrArg Prod.fst (Asking.run_bind_of_ok hrun₁)
  case neighbourhood => exact ⟨_, congrArg Prod.fst (Asking.run_bind_of_ok hrun₂), rfl, rfl⟩
  case methods => exact fun name => (htallies.yields_methodArgCount name s hcoherent).1

/-- In the ring, where `C` is blind, `B` has two direct references, and none is an interface. The
    JSON form of its closure tells two types, if there is room for a level or two. -/
theorem queries_agree_ring :
    ∃ m rs ts c, ring.Agree ["C"] (-1) m rs ts c ∧ ring.Describes ["C"] "B" ∧
      (ring.context ["C"] {}).depthOr none = -1 ∧
      (((ring.context ["C"] {}).metrics "B" none).run Session.fresh).1 = .ok m ∧
      (((ring.context ["C"] {}).closure "B" none).run Session.fresh).1 = .ok ts ∧
      m.directAssociations = 2 ∧ m.indirectAssociations = 2 ∧
      ∃ v, c.toJson? { counting := 2, converting := 2 } = some v ∧
        v.member? "total" = some (.nat 2) := by
  have hroot : ring.Describes ["C"] "B" := ⟨by decide, by decide⟩
  have hdepth : (ring.context ["C"] {}).depthOr none = -1 := rfl
  obtain ⟨m, rs, ts, c, hagree, htold⟩ := queries_agree ring ["C"] {} hroot (by decide) hdepth
  obtain ⟨hmetrics, hdirect, hclosure, htree, -⟩ := htold Session.fresh ⟨[], rfl⟩
  have hindirect : m.indirectAssociations = 2 := by
    cases hclosure
    exact hagree.indirect
  have hlevels : ((((ring.context ["C"] {}).closureTree "B" none).run Session.fresh).1.map
      fun c => decide (ClosureEntry.levels c.entries ≤ 2)).toOption = some true := by decide +kernel
  rw [htree] at hlevels
  have htwo : ClosureEntry.levels c.entries ≤ 2 := of_decide_eq_true (Option.some.inj hlevels)
  obtain ⟨v, hv⟩ := (hagree.told_iff { counting := 2, converting := 2 }).2 ⟨htwo, htwo⟩
  refine ⟨m, rs, ts, c, hagree, hroot, hdepth, hmetrics, hclosure, ?_, hindirect, v, hv, ?_⟩
  · cases hdirect
    exact hagree.direct
  · rw [(hagree.told _ v hv).1, hindirect]

end TypeIndex

end TypeAtlas
