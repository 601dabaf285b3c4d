import PathRules.Proofs.DeleteRepetition
import PathRules.Proofs.Leaves
import PathRules.Proofs.PassState

/-!
# Where the leaves of the outcome come from

Selecting and deleting only take leaves away, and a write brings those of its value. But a second
write to a destination makes a pair with what is there. The sources that were written to a
destination are remembered for a whole pass, the value is not: it may have been moved on, or a write
above it may have replaced it. Then the write finds nothing and makes a pair with a null. Every
leaf of the outcome is a leaf of the body or the null of such an orphaned write.
-/

namespace PathRules

namespace Node

variable {src t : Node} {x : Scalar}

theorem mem_leaves_of_view (hsrc : src.WellFormed) (ht : t.WellFormed)
    (h : ∀ p s, t.view p = some (.scalar s) → src.view p = some (.scalar s)) (hx : x ∈ t.leaves) :
    x ∈ src.leaves := by
  obtain ⟨p, hp⟩ := (mem_leaves_iff ht).mp hx
  exact (mem_leaves_iff hsrc).mpr ⟨p, view_eq_scalar_iff.mp (h p x (view_eq_scalar_iff.mpr hp))⟩

theorem Part.mem_leaves {K : Place → Prop} (h : Part K src t) (hsrc : src.WellFormed)
    (ht : t.WellFormed) (hx : x ∈ t.leaves) : x ∈ src.leaves :=
  mem_leaves_of_view hsrc ht (fun p _ hp => ((h p _).mp hp).2) hx

theorem mem_leaves_foldl_remove {as : List Address} (ht : t.WellFormed)
    (has : ∀ a ∈ as, t.ReadsAlong a) (hx : x ∈ (as.foldl Node.remove t).leaves) : x ∈ t.leaves :=
  mem_leaves_of_view ht (ht.foldl_remove has)
    (fun p _ hp => ((view_foldl_remove ht has p _).mp hp).1) hx

end Node

namespace Plan

theorem mem_leaves_runDelete {t : Node} {x : Scalar} (ht : t.WellFormed) {paths : List Path}
    (hx : x ∈ (runDelete t paths).leaves) : x ∈ t.leaves := by
  induction paths generalizing t with
  | nil => exact hx
  | cons path paths ih =>
      have hstep := ih (wellFormed_deletePath ht path) hx
      rw [deletePath_eq_foldl_remove] at hstep
      exact Node.mem_leaves_foldl_remove ht (readsAlong_of_mem_find Node.part_self ht) hstep

theorem mem_leaves_merge {value slot : Node} {writes : Nat} {x : Scalar}
    (hx : x ∈ (merge writes value slot).leaves) :
    x ∈ value.leaves ∨ writes ≠ 1 ∧ x ∈ slot.leaves := by
  have hpair : x ∈ (Node.seq [slot, value]).leaves → x ∈ slot.leaves ∨ x ∈ value.leaves := by
    simp [Node.leaves_seq]
  by_cases hfirst : writes = 1
  · simp only [merge, if_pos hfirst] at hx
    exact Or.inl hx
  · suffices h : x ∈ slot.leaves ∨ x ∈ value.leaves from h.symm.imp_right fun h => ⟨hfirst, h⟩
    simp only [merge, if_neg hfirst] at hx
    split at hx
    · split at hx
      · simpa [Node.leaves_seq] using hx
      · exact hpair hx
    · exact hpair hx

namespace Relocating

/-- The destination has had other values in this pass, and there is nothing at it now. -/
def Orphaned (r : Relocating) (t : Transfer) : Prop :=
  t.source ∉ r.assigned.sources t.dest ∧ r.assigned.sources t.dest ≠ [] ∧
    r.root.seek t.dest.place = none

instance (r : Relocating) (t : Transfer) : Decidable (r.Orphaned t) :=
  inferInstanceAs (Decidable (_ ∧ _ ∧ _))

/-- Transfers with the state of the pass that each of them meets. -/
def stages (r : Relocating) : List Transfer → List (Relocating × Transfer)
  | [] => []
  | t :: ts => (r, t) :: (r.assign t).stages ts

/-- The transfers of all rules with the states that they meet. -/
def writes (removeSources : Bool) (r : Relocating) : List Relocation → List (Relocating × Transfer)
  | [] => []
  | rule :: rules =>
      (r.opening removeSources rule).stages (r.pending rule) ++
        (r.apply removeSources rule).writes removeSources rules

variable {r : Relocating} {t : Transfer} {x : Scalar}

theorem mem_leaves_assign (hr : r.root.WellFormed) (hd : t.dest.Plain)
    (hv : t.value.WellFormed) (hx : x ∈ (r.assign t).root.leaves) :
    x ∈ r.root.leaves ∨ x ∈ t.value.leaves ∨ x = .null ∧ r.Orphaned t := by
  by_cases hs : t.source ∈ r.assigned.sources t.dest
  · rw [assign, if_pos hs] at hx
    exact Or.inl hx
  · rw [root_assign hs] at hx
    rcases Node.mem_leaves_alterAt hr hd (fun u hu => wellFormed_merge _ hv hu) hx with hx | hx
    · exact Or.inl hx
    · rcases mem_leaves_merge hx with hx | ⟨hmore, hx⟩
      · exact Or.inr (Or.inl hx)
      · cases hslot : r.root.seek t.dest.place with
        | some n =>
            rw [hslot, Option.getD_some] at hx
            exact Or.inl (Node.mem_leaves_of_seek hr hslot hx)
        | none =>
            rw [hslot, Option.getD_none, Node.null, Node.leaves_scalar, List.mem_singleton] at hx
            refine Or.inr (Or.inr ⟨hx, hs, ?_, hslot⟩)
            intro hnone
            simp [hnone] at hmore

theorem mem_leaves_foldl_assign {ts : List Transfer} (hr : r.root.WellFormed)
    (hts : ∀ t ∈ ts, t.dest.Plain ∧ t.value.WellFormed)
    (hx : x ∈ (ts.foldl assign r).root.leaves) :
    x ∈ r.root.leaves ∨ (∃ t ∈ ts, x ∈ t.value.leaves) ∨
      x = .null ∧ ∃ w ∈ r.stages ts, w.1.Orphaned w.2 := by
  induction ts generalizing r with
  | nil => exact Or.inl hx
  | cons t ts ih =>
      obtain ⟨⟨hd, hv⟩, hts⟩ := List.forall_mem_cons.mp hts
      simp only [stages, List.exists_mem_cons_iff]
      rcases ih (wellFormed_root_assign hr hd hv) hts hx with hfirst | hx | ⟨hnull, horphan⟩
      · rcases mem_leaves_assign hr hd hv hfirst with hx | hx | ⟨hnull, horphan⟩
        · exact Or.inl hx
        · exact Or.inr (Or.inl (Or.inl hx))
        · exact Or.inr (Or.inr ⟨hnull, Or.inl horphan⟩)
      · exact Or.inr (Or.inl (Or.inr hx))
      · exact Or.inr (Or.inr ⟨hnull, Or.inr horphan⟩)

theorem mem_leaves_opening {removeSources : Bool} {rule : Relocation} (hr : r.root.WellFormed)
    (hx : x ∈ (r.opening removeSources rule).root.leaves) : x ∈ r.root.leaves := by
  cases removeSources with
  | false => exact hx
  | true =>
      refine Node.mem_leaves_foldl_remove hr (fun a ha => ?_) hx
      obtain ⟨t, ht, rfl⟩ := List.mem_map.mp ha
      exact (from_of_mem_pending hr ht).holds.readsAlong

theorem mem_leaves_apply {removeSources : Bool} {rule : Relocation} (hr : r.root.WellFormed)
    (hx : x ∈ (r.apply removeSources rule).root.leaves) :
    x ∈ r.root.leaves ∨ x = .null ∧
      ∃ w ∈ (r.opening removeSources rule).stages (r.pending rule), w.1.Orphaned w.2 := by
  have hfrom : ∀ t ∈ r.pending rule, t.From r.root := fun t ht => from_of_mem_pending hr ht
  rw [apply_eq] at hx
  rcases mem_leaves_foldl_assign (wellFormed_opening removeSources hr rule)
    (fun t ht => ⟨(hfrom t ht).plain, (hfrom t ht).wellFormed hr⟩) hx with hx | ⟨t, ht, hx⟩ | hx
  · exact Or.inl (mem_leaves_opening hr hx)
  · -- The value of a transfer was in the tree when the rule began.
    exact Or.inl (Node.mem_leaves_of_seek hr (hfrom t ht).seek_eq hx)
  · exact Or.inr hx

theorem mem_leaves_foldl_apply {removeSources : Bool} {rules : List Relocation}
    (hr : r.root.WellFormed) (hx : x ∈ (rules.foldl (apply removeSources) r).root.leaves) :
    x ∈ r.root.leaves ∨
      x = .null ∧ ∃ w ∈ r.writes removeSources rules, w.1.Orphaned w.2 := by
  induction rules generalizing r with
  | nil => exact Or.inl hx
  | cons rule rules ih =>
      simp only [writes, List.mem_append, or_and_right, exists_or]
      rcases ih (wellFormed_apply removeSources hr rule) hx with hfirst | ⟨hnull, horphan⟩
      · rcases mem_leaves_apply hr hfirst with hx | ⟨hnull, horphan⟩
        · exact Or.inl hx
        · exact Or.inr ⟨hnull, Or.inl horphan⟩
      · exact Or.inr ⟨hnull, Or.inr horphan⟩

end Relocating

/-- The transfers of the moves and of the maps with the states that they meet. -/
def writes (p : Plan) (root : Node) : List (Relocating × Transfer) :=
  let kept := runDelete (p.selected root) p.delete
  Relocating.writes true ⟨kept, [], []⟩ p.move ++
    Relocating.writes false ⟨(relocate true kept p.move).1, [], []⟩ p.map

theorem mem_leaves_runOn {body : Value} (hbody : body.WellFormed) (p : Plan) {x : Scalar}
    (hx : x ∈ (p.runOn (.ofValue body)).1.leaves) :
    x ∈ body.leaves ∨
      x = .null ∧ ∃ w ∈ p.writes (.ofValue body), w.1.Orphaned w.2 := by
  obtain ⟨K, hpart, hselected⟩ := part_selected hbody p
  let r : Relocating := ⟨runDelete (p.selected (.ofValue body)) p.delete, [], []⟩
  have hkept : r.root.WellFormed := wellFormed_runDelete hselected p.delete
  let r' : Relocating := ⟨(p.move.foldl (Relocating.apply true) r).root, [], []⟩
  have hmoved : r'.root.WellFormed := Relocating.wellFormed_foldl_apply true hkept p.move
  have hmap : x ∈ (p.map.foldl (Relocating.apply false) r').root.leaves := hx
  simp only [writes, List.mem_append, or_and_right, exists_or]
  rcases Relocating.mem_leaves_foldl_apply hmoved hmap with hmove | ⟨hnull, horphan⟩
  · rcases Relocating.mem_leaves_foldl_apply hkept hmove with hx | ⟨hnull, horphan⟩
    · left
      have hsrc := Node.wellFormed_ofValue hbody
      rw [← Node.leaves_ofValue]
      exact hpart.mem_leaves hsrc hselected (mem_leaves_runDelete hselected hx)
    · exact Or.inr ⟨hnull, Or.inl horphan⟩
  · exact Or.inr ⟨hnull, Or.inr horphan⟩

/-- Every scalar of the outcome is one of the body, but for the nulls of orphaned writes. -/
theorem execute_mem_leaves {body : Value} (hbody : body.WellFormed) (hc : body.isContainer)
    (p : Plan) (keepIndices : Bool) :
    ∃ e, p.execute body keepIndices = .ok e ∧ ∀ x ∈ e.data.leaves,
      x ∈ body.leaves ∨
        x = .null ∧ ∃ w ∈ p.writes (.ofValue body), w.1.Orphaned w.2 := by
  refine ⟨_, if_pos hc, fun x hx => ?_⟩
  rw [Node.leaves_toValue] at hx
  exact mem_leaves_runOn hbody p hx

/-- A move from one name to another. -/
def rename (source dest : String) : Relocation :=
  ⟨⟨source, [.step (.literal source) none false], {}⟩, .parse dest⟩

def oneAndTwo : Value :=
  .map [("a", .scalar (.int 1)), ("b", .scalar (.int 2))]

/-- Two names move to a third one. -/
def meetingMoves : Plan :=
  { move := [rename "a" "x", rename "b" "x"] }

theorem execute_mem_leaves_meetingMoves :
    oneAndTwo.WellFormed ∧ oneAndTwo.isContainer ∧
      ∃ e, meetingMoves.execute oneAndTwo true = .ok e ∧
        e.data = .map [("x", .seq [.scalar (.int 1), .scalar (.int 2)])] ∧
        ∀ x ∈ e.data.leaves, x ∈ oneAndTwo.leaves := by
  have hbody : oneAndTwo.WellFormed := by simp [oneAndTwo, Entries.keys]
  have hwrites : ¬ ∃ w ∈ meetingMoves.writes (.ofValue oneAndTwo), w.1.Orphaned w.2 := by
    decide
  obtain ⟨e, he, hleaves⟩ := execute_mem_leaves hbody rfl meetingMoves true
  refine ⟨hbody, rfl, e, he, ?_, ?_⟩
  · cases he
    rfl
  · intro x hx
    exact (hleaves x hx).resolve_right fun h => hwrites h.2

/-- The value at `x` moves on to `y` before the second one arrives. -/
def movesThrough : Plan :=
  { move := [rename "a" "x", rename "x" "y", rename "b" "x"] }

theorem execute_movesThrough :
    ∃ e, movesThrough.execute oneAndTwo true = .ok e ∧
      e.data = .map [("y", .scalar (.int 1)), ("x", .seq [.scalar .null, .scalar (.int 2)])] ∧
      .null ∈ e.data.leaves ∧ .null ∉ oneAndTwo.leaves := by
  refine ⟨_, rfl, rfl, ?_, ?_⟩
  · decide
  · decide

end Plan

end PathRules
