import Mathlib.Data.List.Nodup
import PathRules.Proofs.MatchStrides
import PathRules.Proofs.TrailOrder

/-!
# No match is found twice

The children of a node have different keys, so a step leads each match on to a different address,
and a recursive step reaches each container by a different walk. Matches that part at a step differ
in their keys, and matches that part at a walk differ in the splat that records it. Where only one
segment is recursive the splat can be told from the keys, since every other segment takes one key.
-/

namespace PathRules

/-- The keys under which a node lists its children are different, at every location of the tree. -/
def Tree.Distinct {α : Type} [Tree α] (root : α) : Prop :=
  ∀ {a : Address} {n : α}, At root a n → ((children n).map Prod.fst).Nodup

theorem Node.WellFormed.distinct {t : Node} (ht : t.WellFormed) : Tree.Distinct t :=
  fun h => (h.wellFormed ht).nodup_keys_children

theorem Value.WellFormed.distinct {v : Value} (hv : v.WellFormed) : Tree.Distinct v := by
  intro a x h
  have hchildren : Tree.children (Node.ofValue x) =
      (Tree.children x).map fun p => (p.1, Node.ofValue p.2) := Node.children_ofValue x
  have hnode := (Node.wellFormed_ofValue hv).distinct h.ofValue
  rwa [hchildren, List.map_map] at hnode

/-- A list put together from blocks has no repetition if the blocks have none, and if blocks that
share a member belong to the same key. -/
theorem nodup_flatMap_of_keys {β γ κ : Type} {l : List β} {key : β → κ} {f : β → List γ}
    (hl : (l.map key).Nodup) (hblock : ∀ x ∈ l, (f x).Nodup)
    (hshared : ∀ x ∈ l, ∀ y ∈ l, ∀ z ∈ f x, z ∈ f y → key x = key y) : (l.flatMap f).Nodup := by
  refine List.nodup_flatMap.mpr ⟨hblock, ?_⟩
  refine (List.pairwise_map.mp hl).imp_of_mem ?_
  intro x y hx hy hne z hzx hzy
  exact hne (hshared x hx y hy z hzx hzy)

namespace Path

variable {α : Type} [Tree α] {root node : α} {key : Matcher} {value : Option Matcher}
  {segments rest : List Segment} {number : Nat} {found : Match}

theorem map_fst_reach (node : α) : (Tree.reach node).map Prod.fst =
    ((Tree.children node).flatMap fun p =>
      if Tree.isContainer p.2 then ((Tree.reach p.2).map Prod.fst).map (p.1 :: ·) else []) ++
    [[]] := by
  rw [Tree.reach_eq, List.map_append, List.map_flatMap]
  congr 1
  apply List.flatMap_congr
  rintro ⟨k, c⟩ -
  by_cases hc : Tree.isContainer c <;> simp [hc]

/-- Different walks of a recursive step lead to different containers. -/
theorem nodup_reach (hnode : Tree.Distinct node) : ((Tree.reach node).map Prod.fst).Nodup := by
  induction node using Tree.induction with
  | step node ih =>
      have hhead : ∀ p : Key × α, ∀ w ∈ (if Tree.isContainer p.2 then
          ((Tree.reach p.2).map Prod.fst).map (p.1 :: ·) else []), w.head? = some p.1 := by
        intro p w hw
        split at hw
        · obtain ⟨w', -, rfl⟩ := List.mem_map.mp hw
          rfl
        · cases hw
      rw [map_fst_reach]
      refine List.Nodup.append ?_ (List.nodup_singleton _) ?_
      · refine nodup_flatMap_of_keys (hnode (Tree.At.root node)) ?_ ?_
        · rintro ⟨k, c⟩ hc
          dsimp only
          split
          · exact (ih k c hc fun h => hnode (Tree.At.child hc h)).map List.cons_injective
          · exact List.nodup_nil
        · intro p _ q _ w hwp hwq
          exact Option.some.inj ((hhead p w hwp).symm.trans (hhead q w hwq))
      · intro w hw hnil
        obtain ⟨p, -, hw⟩ := List.mem_flatMap.mp hw
        have hsome := hhead p w hw
        rw [List.mem_singleton.mp hnil] at hsome
        cases hsome

/-- Hits of one step have different addresses. -/
theorem nodup_hits (hnode : ((Tree.children node).map Prod.fst).Nodup) :
    ((hits key value node found).map fun p => p.1.keys).Nodup := by
  have hsublist : ((hits key value node found).map fun p => p.1.keys).Sublist
      ((Tree.children node).map fun p => found.keys ++ [p.1]) := by
    rw [hits]
    induction Tree.children node with
    | nil => exact List.Sublist.refl _
    | cons p ps ih =>
        cases hs : stepCaptures? key value (Tree.seqLength? node) p.1 p.2 with
        | none => simpa [hs] using ih.cons _
        | some captures => simpa [hs, Match.extend] using ih
  refine hsublist.nodup ?_
  have hinjective : Function.Injective fun k : Key => found.keys ++ [k] := by
    intro k k' h
    simpa using h
  simpa [Function.comp_def] using hnode.map hinjective

/-- What is found from the hits of one step is told apart by anything that determines the keys. -/
theorem nodup_map_flatMap_hits {β : Type} {f : Match → β} {next : Match → α → List Match}
    (hf : ∀ m m', f m = f m' → m.keys = m'.keys)
    (hnode : ((Tree.children node).map Prod.fst).Nodup)
    (hnext : ∀ m c, (m, c) ∈ hits key value node found → ((next m c).map f).Nodup)
    (hkeys : ∀ m c, (m, c) ∈ hits key value node found → ∀ m' ∈ next m c, m.keys <+: m'.keys) :
    (((hits key value node found).flatMap fun (m, c) => next m c).map f).Nodup := by
  rw [List.map_flatMap]
  refine nodup_flatMap_of_keys (nodup_hits hnode) (fun p hp => hnext p.1 p.2 hp) ?_
  rintro ⟨m, c⟩ hm ⟨m', c'⟩ hm' z hz hz'
  obtain ⟨x, hx, rfl⟩ := List.mem_map.mp hz
  obtain ⟨x', hx', heq⟩ := List.mem_map.mp hz'
  have hstart := hkeys m c hm x hx
  have hstart' := hkeys m' c' hm' x' hx'
  rw [hf x' x heq] at hstart'
  have hlength : m.keys.length = m'.keys.length := by
    obtain ⟨k, captures, -, -, rfl⟩ := mem_hits.mp hm
    obtain ⟨k', captures', -, -, rfl⟩ := mem_hits.mp hm'
    simp [Match.extend]
  exact (List.prefix_of_prefix_length_le hstart hstart' hlength.le).eq_of_length hlength

/-- A match that walked down first, then took one key, and after that strides of the segments that
are left. -/
def WalkedOn (root : α) (rest : List Segment) (number : Nat) (found : Match) (w : Address)
    (m : Match) : Prop :=
  ∃ k start strides, Follows root start rest strides ∧
    m.keys = (found.keys ++ w) ++ k :: strides.flatMap Stride.keys ∧
    m.splats = found.splats ++ (number, w) :: Stride.splats (number + 1) strides

section Found

variable (hroot : Tree.Faithful root)
  (hp : ∀ segment ∈ segments, ∃ key value recursive, segment = .step key value recursive)
include hroot hp

theorem keys_prefix_of_mem_findFrom {m : Match} (hnode : Tree.At root found.keys node)
    (hm : m ∈ findFrom root segments number node found) : found.keys <+: m.keys := by
  obtain ⟨strides, hmade⟩ := exists_made hroot hp hnode hm
  exact ⟨_, hmade.keys.symm⟩

/-- The results of one step are told apart by anything that determines the keys, if those of each
hit are. -/
theorem nodup_map_step {β : Type} {f : Match → β} (hf : ∀ m m', f m = f m' → m.keys = m'.keys)
    (hdistinct : Tree.Distinct root) (hnode : Tree.At root found.keys node)
    (hnext : ∀ m c, Tree.At root m.keys c → ((findFrom root segments number c m).map f).Nodup) :
    (((hits key value node found).flatMap fun (m, c) =>
      findFrom root segments number c m).map f).Nodup :=
  nodup_map_flatMap_hits hf (hdistinct hnode) (fun m c hm => hnext m c (at_of_mem_hits hnode hm))
    fun _ _ hm _ hm' => keys_prefix_of_mem_findFrom hroot hp (at_of_mem_hits hnode hm) hm'

/-- A match of a recursive step comes from a walk. -/
theorem walkedOn_of_mem {w : Address} {n : α} {m : Match}
    (hn : Tree.At root (found.keys ++ w) n)
    (hm : m ∈ (hits key value n (found.walk number w)).flatMap fun (m', c) =>
      findFrom root segments (number + 1) c m') : WalkedOn root segments number found w m := by
  obtain ⟨⟨m', c⟩, hhit, hm⟩ := List.mem_flatMap.mp hm
  have hc : Tree.At root m'.keys c := at_of_mem_hits hn hhit
  obtain ⟨strides, hmade⟩ := exists_made hroot hp hc hm
  obtain ⟨k, captures, -, -, rfl⟩ := mem_hits.mp hhit
  refine ⟨k, _, strides, hmade.follows, ?_, ?_⟩
  · simpa [Match.extend, Match.walk] using hmade.keys
  · simpa [Match.extend, Match.walk] using hmade.splats

/-- The results of a recursive step are told apart by anything that determines the keys and the
walk, if those of each hit are. -/
theorem nodup_map_recursive_step {β : Type} {f : Match → β}
    (hf : ∀ m m', f m = f m' → m.keys = m'.keys) (hdistinct : Tree.Distinct root)
    (hnode : Tree.At root found.keys node)
    (hnext : ∀ m c, Tree.At root m.keys c →
      ((findFrom root segments (number + 1) c m).map f).Nodup)
    (hwalk : ∀ w w' m m', WalkedOn root segments number found w m →
      WalkedOn root segments number found w' m' → f m = f m' → w = w') :
    ((findFrom root (.step key value true :: segments) number node found).map f).Nodup := by
  have hat : ∀ {w n}, (w, n) ∈ Tree.reach node → Tree.At root (found.keys ++ w) n :=
    fun hreach => hnode.append (at_of_mem_reach hreach)
  rw [findFrom, List.map_flatMap]
  refine nodup_flatMap_of_keys (nodup_reach fun h => hdistinct (hnode.append h)) ?_ ?_
  · rintro ⟨w, n⟩ hreach
    exact nodup_map_step hroot hp hf hdistinct (hat hreach) hnext
  · rintro ⟨w, n⟩ hreach ⟨w', n'⟩ hreach' z hz hz'
    obtain ⟨m, hm, rfl⟩ := List.mem_map.mp hz
    obtain ⟨m', hm', heq⟩ := List.mem_map.mp hz'
    exact hwalk w w' m m' (walkedOn_of_mem hroot hp (hat hreach) hm)
      (walkedOn_of_mem hroot hp (hat hreach') hm') heq.symm

end Found

/-- No two matches have both the same keys and the same splats. -/
theorem nodup_findFrom (hroot : Tree.Faithful root) (hdistinct : Tree.Distinct root)
    (hp : ∀ segment ∈ segments, ∃ key value recursive, segment = .step key value recursive)
    (hnode : Tree.At root found.keys node) :
    ((findFrom root segments number node found).map fun m => (m.keys, m.splats)).Nodup := by
  induction segments generalizing number node found with
  | nil => exact List.nodup_singleton _
  | cons segment rest ih =>
      obtain ⟨⟨key, value, recursive, rfl⟩, hrest⟩ := List.forall_mem_cons.mp hp
      have hkeys : ∀ m m' : Match, (m.keys, m.splats) = (m'.keys, m'.splats) → m.keys = m'.keys :=
        fun _ _ h => congrArg Prod.fst h
      cases recursive with
      | false => exact nodup_map_step hroot hrest hkeys hdistinct hnode fun m c => ih hrest
      | true =>
          -- The splat that records the walk is at the same position in both.
          refine nodup_map_recursive_step hroot hrest hkeys hdistinct hnode (fun m c => ih hrest) ?_
          rintro w w' m m' ⟨k, start, strides, -, -, hsplats⟩ ⟨k', start', strides', -, -, hsplats'⟩
            heq
          have hsame : m.splats = m'.splats := congrArg Prod.snd heq
          rw [hsplats, hsplats'] at hsame
          exact congrArg Prod.snd (List.cons.inj (List.append_cancel_left hsame)).1

theorem length_keys_of_follows {start : Address} {strides : List Stride}
    (h : Follows root start segments strides)
    (hplain : ∀ segment ∈ segments, segment.isRecursive = false) :
    (strides.flatMap Stride.keys).length = segments.length := by
  induction segments generalizing start strides with
  | nil =>
      cases strides with
      | nil => rfl
      | cons s strides => exact h.elim
  | cons segment rest ih =>
      obtain ⟨hsegment, hrest⟩ := List.forall_mem_cons.mp hplain
      cases strides with
      | nil => exact h.elim
      | cons s strides =>
          obtain ⟨hs, hfollows⟩ := h
          have hone : s.keys.length = 1 := by
            cases segment with
            | parent => exact hs.elim
            | step key value recursive =>
                have hsplat : s.splat = none := by
                  rw [← Option.not_isSome_iff_eq_none, hs.1]
                  simpa [Segment.isRecursive] using hsegment
                simp [Stride.keys, Stride.walked, hsplat]
          rw [List.flatMap_cons, List.length_append, hone, ih hfollows hrest, List.length_cons,
            Nat.add_comm]

/-- With at most one recursive segment no two matches have the same keys: the walk of that segment
takes up what the other segments leave. -/
theorem nodup_keys_findFrom (hroot : Tree.Faithful root) (hdistinct : Tree.Distinct root)
    (hp : ∀ segment ∈ segments, ∃ key value recursive, segment = .step key value recursive)
    (hone : segments.countP Segment.isRecursive ≤ 1) (hnode : Tree.At root found.keys node) :
    ((findFrom root segments number node found).map Match.keys).Nodup := by
  induction segments generalizing number node found with
  | nil => exact List.nodup_singleton _
  | cons segment rest ih =>
      obtain ⟨⟨key, value, recursive, rfl⟩, hrest⟩ := List.forall_mem_cons.mp hp
      cases recursive with
      | false =>
          have hone : rest.countP Segment.isRecursive ≤ 1 := by
            simpa [List.countP_cons, Segment.isRecursive] using hone
          exact nodup_map_step hroot hrest (fun _ _ h => h) hdistinct hnode fun m c =>
            ih hrest hone
      | true =>
          have hnone : rest.countP Segment.isRecursive = 0 := by
            simpa [List.countP_cons, Segment.isRecursive] using hone
          have hplain : ∀ segment ∈ rest, segment.isRecursive = false := by
            simpa using List.countP_eq_zero.mp hnone
          refine nodup_map_recursive_step hroot hrest (fun _ _ h => h) hdistinct hnode
            (fun m c => ih hrest (hnone.trans_le (Nat.zero_le 1))) ?_
          rintro w w' m m' ⟨k, start, strides, hfollows, hkeys, -⟩
            ⟨k', start', strides', hfollows', hkeys', -⟩ heq
          have hsame : (k :: strides.flatMap Stride.keys).length =
              (k' :: strides'.flatMap Stride.keys).length := by
            simp only [List.length_cons, length_keys_of_follows hfollows hplain,
              length_keys_of_follows hfollows' hplain]
          rw [hkeys, hkeys'] at heq
          exact List.append_cancel_left (List.append_inj_left' heq hsame)

/-- The path finds no match twice in a tree. -/
structure FindsOnce (path : Path) (root : α) : Prop where
  keys_splats : ((path.find root).map fun m => (m.keys, m.splats)).Nodup
  keys : path.segments.countP Segment.isRecursive ≤ 1 → ((path.find root).map Match.keys).Nodup

/-- Without `..` no two matches in a value or in a working tree have the same keys and splats, and
with at most one recursive segment no two have the same keys. -/
theorem find_once {path : Path} (hpath : path.ParentFree) :
    (∀ v : Value, v.WellFormed → path.FindsOnce v) ∧
      ∀ t : Node, t.WellFormed → path.FindsOnce t := by
  have honce : ∀ {α : Type} [Tree α] (root : α), Tree.Faithful root → Tree.Distinct root →
      path.FindsOnce root := fun root hroot hdistinct =>
    ⟨nodup_findFrom hroot hdistinct hpath (Tree.At.root root),
      fun hone => nodup_keys_findFrom hroot hdistinct hpath hone (Tree.At.root root)⟩
  exact ⟨fun v hv => honce v hv.faithful hv.distinct, fun t ht => honce t ht.faithful ht.distinct⟩

/-- A map inside of maps, all under one name. -/
def nestedNames : Value :=
  .map [("a", .map [("a", .map [("a", .scalar .null)])])]

/-- The entries under the name below another entry under it, both at any depth. -/
def belowNames : Path :=
  ⟨"**/a/**/a", [.step (.literal "a") none true, .step (.literal "a") none true], {}⟩

theorem find_once_nestedNames :
    nestedNames.WellFormed ∧ belowNames.ParentFree ∧
      (belowNames.find nestedNames).map Match.keys =
        [[.name "a", .name "a", .name "a"], [.name "a", .name "a", .name "a"],
          [.name "a", .name "a"]] ∧
      ((belowNames.find nestedNames).map fun m => (m.keys, m.splats)).Nodup := by
  have hv : nestedNames.WellFormed := by simp [nestedNames, Entries.keys]
  have hpath : belowNames.ParentFree := by simp [ParentFree, belowNames]
  exact ⟨hv, hpath, by cbv, ((find_once hpath).1 nestedNames hv).keys_splats⟩

end Path

end PathRules
