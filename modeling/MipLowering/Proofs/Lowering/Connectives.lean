import MipLowering.Proofs.Lowering.Fragments
import MipLowering.Proofs.Lowering.NamedColumns

/-!
# Logic connectives are tight

Negation, conjunction and disjunction are lowered on the 0/1 readings of their operands: a
Boolean operand is read as itself (a posted one as the constant `1`), any other through a node
`operand ≠ 0`, created nested on first use and then shared through the builder's cache
(`ReadsAs`). Nested, an indicator `z` is bound to the readings `a` and `b` by the rows
`z + a = 1` (negation), `z ≤ a`, `z ≤ b`, `z ≥ a + b - 1` (`Lowering.postAnd`) and `z ≥ a`,
`z ≥ b`, `z ≤ a + b` (`Lowering.postOr`). These rows define `z` with no big-M: for 0/1 readings
they leave exactly one value of `z` in `[0, 1]`, also among the reals, namely `1 - a`, `a · b`
and `max a b`. At top level the rows `a ≤ 0`, `a ≥ 1 ∧ b ≥ 1` and `a + b ≥ 1` hold at 0/1
readings exactly when the connective does (`LogicRows`).

## Main results

* `MipLowering.Lowering.reading_spec` — how an operand is read.
* `MipLowering.ReadsAs.finite` — a reading folds finitely when the operand's folds do
  (`Builder.ReadsFinitely`).
* `MipLowering.Lowering.post_readingRow_spec` — a posted row of readings.
* `MipLowering.Lowering.postAnd_spec`, `MipLowering.Lowering.postOr_spec` — the three rows of a
  nested conjunction or disjunction, read with rationals.
* `MipLowering.Lowering.and_rows_iff`, `MipLowering.Lowering.or_rows_iff` — for 0/1 readings
  they pin the indicator.
* `MipLowering.Lowering.connectives_exact` — the three connectives at either level.
-/

namespace MipLowering

open ERat

@[simp] theorem ERat.toRat_ofBool (z : Bool) : (ofBool z).toRat = if z then 1 else 0 := rfl

namespace Lowering

/-! ### The rows of the connectives, read with 0/1 readings -/

section Tight

variable {t : Rat}

/-- `z + a = 1` leaves `z = 1 - a`. -/
theorem not_rows_iff (ra : Bool) :
    t + (ofBool ra).toRat = 1 ↔ t = 1 - (ofBool ra).toRat := by
  constructor <;> intro h <;> linarith

/-- `z ≤ a`, `z ≤ b`, `z ≥ a + b - 1` leave, of the values in `[0, 1]`, only `z = a · b`. -/
theorem and_rows_iff (ra rb : Bool) (h0 : 0 ≤ t) :
    (t ≤ (ofBool ra).toRat ∧ t ≤ (ofBool rb).toRat ∧
        (ofBool ra).toRat + (ofBool rb).toRat - 1 ≤ t) ↔
      t = (ofBool ra).toRat * (ofBool rb).toRat := by
  constructor
  · rintro ⟨h₁, h₂, h₃⟩
    cases ra <;> cases rb <;> norm_num at h₁ h₂ h₃ ⊢ <;> linarith
  · rintro rfl
    cases ra <;> cases rb <;> norm_num

/-- `z ≥ a`, `z ≥ b`, `z ≤ a + b` leave, of the values in `[0, 1]`, only `z = max a b`. -/
theorem or_rows_iff (ra rb : Bool) (h1 : t ≤ 1) :
    ((ofBool ra).toRat ≤ t ∧ (ofBool rb).toRat ≤ t ∧
        t ≤ (ofBool ra).toRat + (ofBool rb).toRat) ↔
      t = max (ofBool ra).toRat (ofBool rb).toRat := by
  constructor
  · rintro ⟨h₁, h₂, h₃⟩
    cases ra <;> cases rb <;> norm_num at h₁ h₂ h₃ ⊢ <;> linarith
  · rintro rfl
    cases ra <;> cases rb <;> norm_num

/-- The disjunction rows at a 0/1 indicator: it is `1` exactly when one of the readings is. -/
theorem or_bits_iff (ra rb z : Bool) :
    ((ofBool ra).toRat ≤ (ofBool z).toRat ∧ (ofBool rb).toRat ≤ (ofBool z).toRat ∧
        (ofBool z).toRat ≤ (ofBool ra).toRat + (ofBool rb).toRat) ↔
      (z = true ↔ ra = true ∨ rb = true) := by
  rw [or_rows_iff ra rb (by cases z <;> norm_num)]
  cases ra <;> cases rb <;> cases z <;> norm_num

/-- On 0/1 readings, negation, conjunction and disjunction are `1 - a`, `a · b` and `max a b`. -/
theorem toRat_ofBool_not (ra : Bool) : (ofBool !ra).toRat = 1 - (ofBool ra).toRat := by
  cases ra <;> norm_num

theorem toRat_ofBool_and (ra rb : Bool) :
    (ofBool (ra && rb)).toRat = (ofBool ra).toRat * (ofBool rb).toRat := by
  cases ra <;> cases rb <;> norm_num

theorem toRat_ofBool_or (ra rb : Bool) :
    (ofBool (ra || rb)).toRat = max (ofBool ra).toRat (ofBool rb).toRat := by
  cases ra <;> cases rb <;> norm_num

end Tight

/-! ### Posted rows of readings -/

section Posted

variable {b b' : Builder ERat} {lhs rhs : ERat} {z : Option Nat} {xs : List Reading} {q : Rat}

theorem addedRowsAdmit_addRow {R : Row ERat} {W : Array ERat} :
    AddedRowsAdmit b { b with model := b.model.addRow R } W ↔ R.Admits W := by
  simp only [AddedRowsAdmit, addedRows_addRow, List.mem_singleton, forall_eq]

/-- The rows added up to a last row `R`: the earlier ones hold, and so does `R`. -/
theorem addedRowsAdmit_addRow_right {b₁ : Builder ERat} {R : Row ERat} {W : Array ERat}
    (hpre : b.model.rows.toList <+: b₁.model.rows.toList) :
    AddedRowsAdmit b { b₁ with model := b₁.model.addRow R } W ↔
      AddedRowsAdmit b b₁ W ∧ R.Admits W := by
  rw [addedRowsAdmit_trans hpre (addsRows_addRow R).1, addedRowsAdmit_addRow]

/-- Posting a row of readings and going on with `k`. -/
theorem post_readingRow_bind {β : Type} {k : Lowering ERat β} {c : β}
    (h : (readingRow lhs rhs z xs (.fin q) >>= fun R => post R >>= fun _ => k).run b =
      .ok c b') (hord : OperandsPrecede b.nodes) (hxs : ∀ x ∈ xs, x.Finite b.nodes) :
    ∃ R, k.run { b with model := b.model.addRow R } = .ok c b' ∧ ∀ W,
      (∀ v, z = some v → ∃ w, W.getD v Scalar.zero = .fin w) → (∀ x ∈ xs, x.FiniteAt b.nodes W) →
      (R.Admits W ↔
        lhs ≤ .fin ((z.map fun v => (W.getD v Scalar.zero).toRat).getD 0 +
          (xs.map fun x => q * x.value b.nodes W).sum) ∧
        .fin ((z.map fun v => (W.getD v Scalar.zero).toRat).getD 0 +
          (xs.map fun x => q * x.value b.nodes W).sum) ≤ rhs) := by
  obtain ⟨R, b₁, h₁, hk⟩ := run_bind_ok h
  obtain ⟨_, b₂, h₂, hk⟩ := run_bind_ok hk
  rw [post_run] at h₂
  cases h₂
  obtain ⟨rfl, hsem⟩ := readingRow_spec hord hxs h₁
  exact ⟨R, hk, hsem⟩

/-- Posting a row of readings as the last step. -/
theorem post_readingRow_spec {u : Unit}
    (h : (readingRow lhs rhs z xs (.fin q) >>= fun R => post R).run b = .ok u b')
    (hord : OperandsPrecede b.nodes) (hxs : ∀ x ∈ xs, x.Finite b.nodes) :
    ∃ R, b' = { b with model := b.model.addRow R } ∧ ∀ W,
      (∀ v, z = some v → ∃ w, W.getD v Scalar.zero = .fin w) → (∀ x ∈ xs, x.FiniteAt b.nodes W) →
      (R.Admits W ↔
        lhs ≤ .fin ((z.map fun v => (W.getD v Scalar.zero).toRat).getD 0 +
          (xs.map fun x => q * x.value b.nodes W).sum) ∧
        .fin ((z.map fun v => (W.getD v Scalar.zero).toRat).getD 0 +
          (xs.map fun x => q * x.value b.nodes W).sum) ≤ rhs) := by
  obtain ⟨R, b₁, h₁, h₂⟩ := run_bind_ok h
  rw [post_run] at h₂
  cases h₂
  obtain ⟨rfl, hsem⟩ := readingRow_spec hord hxs h₁
  exact ⟨R, rfl, hsem⟩

end Posted

/-! ### Conjunction and disjunction -/

section Connectives

variable {b b' : Builder ERat} {z : Nat} {x y : Reading} {u : Unit}

/-- Three rows binding `z` to `x`, to `y` and to both, as `postAnd` and `postOr` post them:
`lᵢ ≤ z - x ≤ hᵢ` and so on. -/
theorem threeRows_spec (hord : OperandsPrecede b.nodes) (hx : x.Finite b.nodes)
    (hy : y.Finite b.nodes) {l₁ h₁ l₂ h₂ l₃ h₃ : ERat}
    (h : (readingRow l₁ h₁ (some z) [x] (-Scalar.one) >>= fun R => post R >>= fun _ =>
      readingRow l₂ h₂ (some z) [y] (-Scalar.one) >>= fun R => post R >>= fun _ =>
      readingRow l₃ h₃ (some z) [x, y] (-Scalar.one) >>= fun R => post R).run b = .ok u b') :
    AddsRows b b' ∧ ∀ W, (∃ w, W.getD z Scalar.zero = .fin w) → x.FiniteAt b.nodes W →
      y.FiniteAt b.nodes W →
      (AddedRowsAdmit b b' W ↔
        (l₁ ≤ .fin ((W.getD z Scalar.zero).toRat - x.value b.nodes W) ∧
          .fin ((W.getD z Scalar.zero).toRat - x.value b.nodes W) ≤ h₁) ∧
        (l₂ ≤ .fin ((W.getD z Scalar.zero).toRat - y.value b.nodes W) ∧
          .fin ((W.getD z Scalar.zero).toRat - y.value b.nodes W) ≤ h₂) ∧
        (l₃ ≤ .fin ((W.getD z Scalar.zero).toRat - x.value b.nodes W - y.value b.nodes W) ∧
          .fin ((W.getD z Scalar.zero).toRat - x.value b.nodes W - y.value b.nodes W) ≤ h₃)) := by
  obtain ⟨R₁, hk₁, hsem₁⟩ := post_readingRow_bind h hord (List.forall_mem_singleton.2 hx)
  obtain ⟨R₂, hk₂, hsem₂⟩ := post_readingRow_bind hk₁ hord (List.forall_mem_singleton.2 hy)
  obtain ⟨R₃, rfl, hsem₃⟩ := post_readingRow_spec hk₂ hord (by simp [hx, hy])
  refine ⟨(addsRows_addRow _).trans ((addsRows_addRow _).trans (addsRows_addRow _)),
    fun W hzW hxW hyW => ?_⟩
  have hz : ∀ v, some z = some v → ∃ w, W.getD v Scalar.zero = .fin w :=
    fun v hv => Option.some.inj hv ▸ hzW
  rw [addedRowsAdmit_addRow_right ((addsRows_addRow (b := b) R₁).trans (addsRows_addRow R₂)).1,
    addedRowsAdmit_addRow_right (addsRows_addRow (b := b) R₁).1, addedRowsAdmit_addRow,
    hsem₁ W hz (List.forall_mem_singleton.2 hxW), hsem₂ W hz (List.forall_mem_singleton.2 hyW),
    hsem₃ W hz (by simp [hxW, hyW]), and_assoc]
  have hsum : ∀ t a c : Rat, t + (-a - c) = t - a - c := fun t a c => by ring
  simp only [Option.map_some, Option.getD_some, List.map_cons, List.map_nil, List.sum_cons,
    List.sum_nil, add_zero, Int.cast_one, neg_one_mul, ← sub_eq_add_neg, hsum]

/-- The three rows of a nested conjunction: `z ≤ a`, `z ≤ b` and `z ≥ a + b - 1`. -/
theorem postAnd_spec (hord : OperandsPrecede b.nodes) (hx : x.Finite b.nodes)
    (hy : y.Finite b.nodes) (h : (postAnd z x y).run b = .ok u b') :
    AddsRows b b' ∧ ∀ W, (∃ w, W.getD z Scalar.zero = .fin w) → x.FiniteAt b.nodes W →
      y.FiniteAt b.nodes W →
      (AddedRowsAdmit b b' W ↔
        (W.getD z Scalar.zero).toRat ≤ x.value b.nodes W ∧
        (W.getD z Scalar.zero).toRat ≤ y.value b.nodes W ∧
        x.value b.nodes W + y.value b.nodes W - 1 ≤ (W.getD z Scalar.zero).toRat) := by
  obtain ⟨hadds, hsem⟩ := threeRows_spec hord hx hy h
  refine ⟨hadds, fun W hzW hxW hyW => ?_⟩
  rw [hsem W hzW hxW hyW]
  simp only [negInfinity_eq, infinity_eq, zero_eq_fin, one_eq_fin, neg_fin, negInf_le_fin,
    fin_le_posInf, true_and, and_true, fin_le_fin, sub_nonpos]
  exact and_congr_right' (and_congr_right' (by constructor <;> intro h <;> linarith))

/-- The three rows of a nested disjunction: `z ≥ a`, `z ≥ b` and `z ≤ a + b`. -/
theorem postOr_spec (hord : OperandsPrecede b.nodes) (hx : x.Finite b.nodes)
    (hy : y.Finite b.nodes) (h : (postOr z x y).run b = .ok u b') :
    AddsRows b b' ∧ ∀ W, (∃ w, W.getD z Scalar.zero = .fin w) → x.FiniteAt b.nodes W →
      y.FiniteAt b.nodes W →
      (AddedRowsAdmit b b' W ↔
        x.value b.nodes W ≤ (W.getD z Scalar.zero).toRat ∧
        y.value b.nodes W ≤ (W.getD z Scalar.zero).toRat ∧
        (W.getD z Scalar.zero).toRat ≤ x.value b.nodes W + y.value b.nodes W) := by
  obtain ⟨hadds, hsem⟩ := threeRows_spec hord hx hy h
  refine ⟨hadds, fun W hzW hxW hyW => ?_⟩
  rw [hsem W hzW hxW hyW]
  simp only [negInfinity_eq, infinity_eq, zero_eq_fin, negInf_le_fin, fin_le_posInf, true_and,
    and_true, fin_le_fin, sub_nonneg, sub_nonpos, sub_sub, sub_nonpos]

end Connectives

end Lowering

/-! ### Readings of operands -/

/-- Every view and affine sum of the arena has a finite scale and offset. -/
def FiniteScales (nodes : Array (Node ERat)) : Prop :=
  ∀ (m : Nat) (n : Node ERat), nodes[m]? = some n → n.expansion.Finite

section Readings

variable {b b' : Builder ERat}

theorem FiniteScales.reading {nodes : Array (Node ERat)} (h : FiniteScales nodes) :
    ∀ x : Reading, x.Finite nodes
  | .node _ => fun m n _ hn => by unfold FiniteScales at h; exact h m n hn
  | .column _ => trivial

theorem FiniteScales.push {nodes : Array (Node ERat)} (h : FiniteScales nodes) {n : Node ERat}
    (hn : n.expansion.Finite) : FiniteScales (nodes.push n) := by
  unfold FiniteScales at h ⊢
  intro m n' hm
  rw [Array.getElem?_push] at hm
  split at hm
  · cases hm
    exact hn
  · exact h m n' hm

theorem OperandsPrecede.push {α : Type} {nodes : Array (Node α)} (h : OperandsPrecede nodes)
    {n : Node α} (hn : ∀ c ∈ n.kind.children, c < nodes.size) : OperandsPrecede (nodes.push n) := by
  intro i m hm c hc
  rw [Array.getElem?_push] at hm
  split at hm
  · cases hm
    subst i
    exact hn c hc
  · exact h i m hm c hc

theorem modify_push_size {β : Type} (a : Array β) (x : β) (f : β → β) :
    (a.push x).modify a.size f = a.push (f x) := by
  refine Array.ext_getElem? fun i => ?_
  rw [Array.getElem?_modify, Array.getElem?_push, Array.getElem?_push]
  by_cases hi : a.size = i
  · subst hi
    simp
  · simp [hi, Ne.symm hi]

/-- Below a node of an arena whose operands precede their nodes lie only nodes of that arena, also
once a node is pushed. -/
theorem Row.Below.of_push {nodes : Array (Node ERat)} (hord : OperandsPrecede nodes)
    {n : Node ERat} {i m : Nat} (h : Row.Below (nodes.push n) i m) :
    i < nodes.size → Row.Below nodes i m ∧ m < nodes.size := by
  induction h with
  | refl => exact fun hi => ⟨.refl _, hi⟩
  | view hn hx _ ih =>
    intro hi
    rw [Array.getElem?_push, if_neg (Nat.ne_of_lt hi)] at hn
    obtain ⟨hb, hm⟩ := ih (Nat.lt_trans (hord.view_lt hn hx) hi)
    exact ⟨.view hn hx hb, hm⟩
  | sum hn hx ht _ ih =>
    intro hi
    rw [Array.getElem?_push, if_neg (Nat.ne_of_lt hi)] at hn
    obtain ⟨hb, hm⟩ := ih (Nat.lt_trans (hord.sum_lt hn hx ht) hi)
    exact ⟨.sum hn hx ht hb, hm⟩

/-- A fold with finite scales and offsets keeps them once a node is pushed whose own fold has
them. -/
theorem FiniteBelow.push {nodes : Array (Node ERat)} (hord : OperandsPrecede nodes)
    {n : Node ERat} {i : Nat} (h : FiniteBelow nodes i)
    (hn : FiniteBelow (nodes.push n) nodes.size) : FiniteBelow (nodes.push n) i := by
  rcases Nat.lt_trichotomy i nodes.size with hi | rfl | hi
  · intro m k hm hk
    obtain ⟨hm', hlt⟩ := hm.of_push hord hi
    rw [Array.getElem?_push, if_neg (Nat.ne_of_lt hlt)] at hk
    exact h m k hm' hk
  · exact hn
  · -- beyond the arena there is no node, and nothing lies below one
    have hnone : (nodes.push n)[i]? = none := Array.getElem?_eq_none (by simp; omega)
    intro m k hm hk
    cases hm with
    | refl => rw [hnone] at hk; cases hk
    | view hn' _ _ => rw [hnone] at hn'; cases hn'
    | sum hn' _ _ _ => rw [hnone] at hn'; cases hn'

/-- A key the cache maps to `r` comes from an entry naming `r`. -/
theorem exists_mem_of_lookup_eq_some {l : List (Nat × Nat)} {c r : Nat}
    (h : l.lookup c = some r) : ∃ p ∈ l, p.2 = r := by
  obtain ⟨l₁, l₂, rfl, -⟩ := List.lookup_eq_some_iff.1 h
  exact ⟨(c, r), by simp, rfl⟩

/-- A lookup in a cache that grew by `new` finds a new entry or an old one. -/
theorem lookup_append_eq_some {new old : List (Nat × Nat)} {c r : Nat}
    (h : (new ++ old).lookup c = some r) : (∃ p ∈ new, p.2 = r) ∨ old.lookup c = some r := by
  rw [List.lookup_append] at h
  cases hnew : new.lookup c with
  | some r' =>
    rw [hnew, Option.some_or] at h
    exact .inl (exists_mem_of_lookup_eq_some (hnew.trans h))
  | none =>
    rw [hnew, Option.none_or] at h
    exact .inr h

end Readings

namespace Builder

/-- The folds that logic reads from node `a` meet finite scales and offsets only: that of `a`
when it is Boolean, and that of the node the cache holds for it. -/
def ReadsFinitely (b : Builder ERat) (a : Nat) : Prop :=
  (∀ n, b.nodes[a]? = some n → n.isBoolean = true → FiniteBelow b.nodes a) ∧
    ∀ r, b.readings.lookup a = some r → FiniteBelow b.nodes r

end Builder

theorem FiniteScales.readsFinitely {b : Builder ERat} (h : FiniteScales b.nodes) (a : Nat) :
    b.ReadsFinitely a :=
  ⟨fun _ _ _ => h.reading (.node a), fun r _ => h.reading (.node r)⟩

/-- How logic reads node `a`, taking the builder from `b` to `b'`: as the node itself when it is
Boolean; otherwise as the node `a ≠ 0` that `b'` caches for it, taken from the cache of `b` when
it is there (the builder is then unchanged), else pushed as the last node of the arena and lowered
to an indicator column. -/
def ReadsAs (b b' : Builder ERat) (a : Nat) (x : Reading) : Prop :=
  ∃ n, b.nodes[a]? = some n ∧
    ((n.isBoolean = true ∧ x = .node a ∧ b' = b) ∨
      (n.isBoolean = false ∧ ∃ r, x = .node r ∧ b'.readings.lookup a = some r ∧
        ((b.readings.lookup a = some r ∧ b' = b) ∨
          (b.readings.lookup a = none ∧ r = b.nodes.size ∧ ∃ z, b'.nodes = b.nodes.push
            ⟨.rel .ne a (.const Scalar.zero), Scalar.zero, Scalar.one, false, some (.column z)⟩))))

namespace ReadsAs

variable {b b' : Builder ERat} {a : Nat} {x : Reading}

theorem operandsPrecede (h : ReadsAs b b' a x) (hord : OperandsPrecede b.nodes) :
    OperandsPrecede b'.nodes := by
  obtain ⟨n, hn, ⟨-, -, hb⟩ | ⟨-, r, -, -, ⟨-, hb⟩ | ⟨-, -, z, hnodes⟩⟩⟩ := h
  · exact hb ▸ hord
  · exact hb ▸ hord
  · rw [hnodes]
    refine hord.push fun c hc => ?_
    simp only [Kind.children, List.mem_singleton] at hc
    exact hc ▸ (Array.getElem?_eq_some_iff.1 hn).1

theorem finiteScales (h : ReadsAs b b' a x) (hfin : FiniteScales b.nodes) :
    FiniteScales b'.nodes := by
  obtain ⟨n, -, ⟨-, -, hb⟩ | ⟨-, r, -, -, ⟨-, hb⟩ | ⟨-, -, z, hnodes⟩⟩⟩ := h
  · exact hb ▸ hfin
  · exact hb ▸ hfin
  · rw [hnodes]
    exact hfin.push trivial

/-- A new reading `a ≠ 0` is backed by a column, so nothing lies below it. -/
theorem finiteBelow_new {z : Nat} (hnodes : b'.nodes = b.nodes.push
    ⟨.rel .ne a (.const Scalar.zero), Scalar.zero, Scalar.one, false, some (.column z)⟩) :
    FiniteBelow b'.nodes b.nodes.size := by
  rw [hnodes]
  exact finiteBelow_of_column Array.getElem?_push_size rfl

/-- A reading folds with finite scales and offsets when the operand's folds do. -/
theorem finite (h : ReadsAs b b' a x) (hf : b.ReadsFinitely a) : x.Finite b'.nodes := by
  obtain ⟨n, hn, ⟨hbool, rfl, rfl⟩ | ⟨-, r, rfl, -, ⟨hr, rfl⟩ | ⟨-, rfl, z, hnodes⟩⟩⟩ := h
  · exact hf.1 n hn hbool
  · exact hf.2 r hr
  · exact finiteBelow_new hnodes

/-- Reading an operand keeps every fold with finite scales and offsets. -/
theorem finiteBelow (h : ReadsAs b b' a x) (hord : OperandsPrecede b.nodes) {i : Nat}
    (hi : FiniteBelow b.nodes i) : FiniteBelow b'.nodes i := by
  obtain ⟨n, -, ⟨-, -, rfl⟩ | ⟨-, r, -, -, ⟨-, rfl⟩ | ⟨-, -, z, hnodes⟩⟩⟩ := h
  · exact hi
  · exact hi
  · have hnew := finiteBelow_new hnodes
    rw [hnodes] at hnew ⊢
    exact hi.push hord hnew

theorem reading_finite (h : ReadsAs b b' a x) (hord : OperandsPrecede b.nodes) {y : Reading}
    (hy : y.Finite b.nodes) : y.Finite b'.nodes := by
  cases y with
  | node i => exact h.finiteBelow hord hy
  | column v => trivial

/-- Reading one operand keeps the folds of any node that read finitely: the arena gains at most
the new reading, and the cache at most entries for it. -/
theorem readsFinitely (h : ReadsAs b b' a x) (hord : OperandsPrecede b.nodes)
    (hcache : ∃ new, b'.readings = new ++ b.readings ∧
      ∀ p ∈ new, b.nodes.size ≤ p.2 ∧ p.2 < b'.nodes.size)
    {c : Nat} (hf : b.ReadsFinitely c) : b'.ReadsFinitely c := by
  have hkeep : ∀ {i}, FiniteBelow b.nodes i → FiniteBelow b'.nodes i := h.finiteBelow hord
  obtain ⟨n, -, ⟨-, -, rfl⟩ | ⟨-, r, -, -, ⟨-, rfl⟩ | ⟨-, -, z, hnodes⟩⟩⟩ := h
  · exact hf
  · exact hf
  -- the arena gained the reading `a ≠ 0`, the only node new entries of the cache can name
  have hnew := finiteBelow_new hnodes
  have hsize : b'.nodes.size = b.nodes.size + 1 := by simp [hnodes]
  obtain ⟨new, hr, hnewr⟩ := hcache
  refine ⟨fun m hm hbool => ?_, fun r hlook => ?_⟩
  · rw [hnodes, Array.getElem?_push] at hm
    split at hm
    · next hc =>
      rw [hc]
      exact hnew
    · exact hkeep (hf.1 m hm hbool)
  · rw [hr] at hlook
    rcases lookup_append_eq_some hlook with ⟨p, hp, rfl⟩ | hold
    · have hp₂ := hnewr p hp
      have hpsize : p.2 = b.nodes.size := by omega
      rw [hpsize]
      exact hnew
    · exact hkeep (hf.2 r hold)

end ReadsAs

namespace Lowering

/-- A nested relation is lowered to a column. -/
theorem encodeRel_nested_column {b b' : Builder ERat} {id : Nat} {rel : Rel} {expr : Row ERat}
    {e : Encoding}
    (h : (encodeRel id rel expr false).run b = .ok e b') : ∃ z, e = .column z := by
  obtain ⟨σ, b₀, hs, hk⟩ := @run_bind_ok ERat _ _ (separation expr) _ b b' e h
  rw [separation_run] at hs
  cases hs
  simp only [Bool.false_eq_true, if_false] at hk
  obtain ⟨z, b₁, -, hk⟩ := run_bind_ok hk
  cases rel <;> dsimp only at hk <;> obtain ⟨_, b₂, -, hk⟩ := run_bind_ok hk <;> cases hk <;>
    exact ⟨z, rfl⟩

/-- The reading of a node, as `ReadsAs` describes it. -/
theorem reading_spec {b b' : Builder ERat} {a : Nat} {x : Reading}
    (h : (reading a).run b = .ok x b') : ReadsAs b b' a x := by
  obtain ⟨n, b₁, hn, hk⟩ := run_bind_ok h
  rw [nodeAt_run] at hn
  cases hna : b.nodes[a]? with
  | none =>
    rw [hna] at hn
    cases hn
  | some n' =>
    rw [hna] at hn
    cases hn
    refine ⟨_, hna, ?_⟩
    by_cases hb : n.isBoolean = true
    · rw [if_pos hb] at hk
      cases hk
      exact .inl ⟨hb, rfl, rfl⟩
    have hget : (get : Lowering ERat (Builder ERat)).run b = .ok b b := rfl
    rw [if_neg hb, run_bind, hget] at hk
    dsimp only at hk
    refine .inr ⟨by simpa using hb, ?_⟩
    cases hr : b.readings.lookup a with
    | some r =>
      rw [hr] at hk
      cases hk
      exact ⟨r, rfl, hr, .inl ⟨rfl, rfl⟩⟩
    | none =>
      rw [hr] at hk
      -- a cache miss: push `a ≠ 0`, lower it nested, record its encoding and cache it
      obtain ⟨ne, b₂, hp, hk⟩ := run_bind_ok hk
      cases hp
      obtain ⟨expr, b₃, hd, hk⟩ := run_bind_ok hk
      obtain ⟨e, b₄, he, hk⟩ := run_bind_ok hk
      obtain ⟨_, b₅, hs, hk⟩ := run_bind_ok hk
      cases hs
      obtain ⟨_, b₆, hm, hk⟩ := run_bind_ok hk
      cases hm
      cases hk
      obtain ⟨z, rfl⟩ := encodeRel_nested_column he
      refine ⟨b.nodes.size, rfl, by simp, .inr ⟨rfl, rfl, z, ?_⟩⟩
      show (b₄.nodes.modify b.nodes.size fun m => { m with encoding := some (.column z) }) = _
      rw [(encodeRel_appends _ _ _ _ _ _ _ he).1, (difference_appends _ _ _ _ _ _ hd).1]
      exact modify_push_size _ _ _

/-- A reading grows the builder: the cache gains at most entries for the new nodes. -/
theorem reading_grows {b b' : Builder ERat} {a : Nat} {x : Reading}
    (h : (reading a).run b = .ok x b') : b.Grows b' := by
  have hg := (reading_undoable a : Undoable b (reading a) fun _ => True) b (.refl b)
  rw [h] at hg
  exact hg.1

end Lowering


namespace Lowering

/-- The rows that a logic node adds from `b` to `b'` after reading its operands as `x` and `y`,
with its encoding `e`, compute the Boolean function `f` of the readings. At top level the node
is posted, and at 0/1 readings the rows hold exactly when `f` does. Nested, the node is the fresh
column `z` of `b`, and at 0/1 readings the rows leave of the values of `z` in `[0, 1]` only `f`
of the readings. -/
def LogicRows (b b' : Builder ERat) (e : Encoding) (top : Bool) (f : Bool → Bool → Bool)
    (x y : Reading) : Prop :=
  (top = true → e = .posted ∧ ∀ W ra rb, x.FiniteAt b.nodes W → y.FiniteAt b.nodes W →
    x.value b.nodes W = (ofBool ra).toRat → y.value b.nodes W = (ofBool rb).toRat →
      (AddedRowsAdmit b b' W ↔ f ra rb = true)) ∧
  (top = false → e = .column b.model.columns.size ∧ ∀ W ra rb t, x.FiniteAt b.nodes W →
    y.FiniteAt b.nodes W → x.value b.nodes W = (ofBool ra).toRat →
    y.value b.nodes W = (ofBool rb).toRat → W.getD b.model.columns.size Scalar.zero = .fin t →
      0 ≤ t → t ≤ 1 → (AddedRowsAdmit b b' W ↔ t = (ofBool (f ra rb)).toRat))

section Logic

variable {b b' b₁ b₂ : Builder ERat} {id a c : Nat} {top : Bool} {e : Encoding} {x y : Reading}

/-- Negation, once its operand reads as `x`: `x ≤ 0` at top level, `z + x = 1` nested. -/
theorem encodeNot_logicRows (hord : OperandsPrecede b.nodes) (ha : b.ReadsFinitely a)
    (h : (encodeNot id a top).run b = .ok e b') (hx : (reading a).run b = .ok x b₁) :
    LogicRows b₁ b' e top (fun ra _ => !ra) x x := by
  have hk := run_bind_ok_of h hx
  have hread := reading_spec hx
  have hord₁ := hread.operandsPrecede hord
  have hxfin := hread.finite ha
  cases top with
  | true =>
    obtain ⟨R, hk, hsem⟩ := post_readingRow_bind hk hord₁ (List.forall_mem_singleton.2 hxfin)
    cases hk
    refine ⟨fun _ => ⟨rfl, fun W ra _ hxW _ hra _ => ?_⟩, fun h => by cases h⟩
    rw [addedRowsAdmit_addRow, hsem W (by simp) (List.forall_mem_singleton.2 hxW)]
    simp only [Option.map_none, Option.getD_none, List.map_cons, List.map_nil, List.sum_cons,
      List.sum_nil, hra]
    cases ra <;> simp [zero_eq_fin]
  | false =>
    obtain ⟨z, b₂, hz, hk⟩ := run_bind_ok hk
    have hn₂ := indicator_nodes hz
    obtain ⟨R, hk, hsem⟩ := post_readingRow_bind hk (hn₂ ▸ hord₁)
      (List.forall_mem_singleton.2 (hn₂ ▸ hxfin))
    cases hk
    obtain ⟨rfl, -, -, hstart⟩ := indicator_spec hz (addsRows_addRow R).1
    rw [hn₂] at hsem
    refine ⟨fun h => (by cases h), fun _ => ⟨rfl, fun W ra _ t hxW _ hra _ hzW _ _ => ?_⟩⟩
    rw [hstart, addedRowsAdmit_addRow, hsem W (fun v hv => ⟨t, Option.some.inj hv ▸ hzW⟩)
      (List.forall_mem_singleton.2 hxW)]
    simp only [Option.map_some, Option.getD_some, List.map_cons, List.map_nil, List.sum_cons,
      List.sum_nil, add_zero, Int.cast_one, one_mul, hra, hzW, toRat_fin, one_eq_fin, fin_le_fin,
      toRat_ofBool_not, ← not_rows_iff]
    rw [and_comm, ← le_antisymm_iff]

/-- Negation: `x ≤ 0` at top level, `z + x = 1` nested. -/
theorem encodeNot_spec (hord : OperandsPrecede b.nodes) (ha : b.ReadsFinitely a)
    (h : (encodeNot id a top).run b = .ok e b') :
    ∃ b₁ x, ReadsAs b b₁ a x ∧ LogicRows b₁ b' e top (fun ra _ => !ra) x x := by
  obtain ⟨x, b₁, hx, -⟩ := run_bind_ok h
  exact ⟨b₁, x, reading_spec hx, encodeNot_logicRows hord ha h hx⟩

/-- Two operands read one after the other: the arena after both keeps operands before their
nodes, and both readings fold finitely in it. -/
theorem reading_pair_finite (hord : OperandsPrecede b.nodes) (ha : b.ReadsFinitely a)
    (hc : b.ReadsFinitely c) (hx : (reading a).run b = .ok x b₁)
    (hy : (reading c).run b₁ = .ok y b₂) :
    OperandsPrecede b₂.nodes ∧ x.Finite b₂.nodes ∧ y.Finite b₂.nodes := by
  have hread₁ := reading_spec hx
  have hread₂ := reading_spec hy
  have hord₁ := hread₁.operandsPrecede hord
  refine ⟨hread₂.operandsPrecede hord₁, hread₂.reading_finite hord₁ (hread₁.finite ha), ?_⟩
  -- the first reading keeps the second operand's folds, cache included
  exact hread₂.finite (hread₁.readsFinitely hord (reading_grows hx).readings hc)

/-- Conjunction, once its operands read as `x` and `y`: `x ≥ 1` and `y ≥ 1` at top level,
`postAnd` nested. -/
theorem encodeAnd_logicRows (hord : OperandsPrecede b.nodes) (ha : b.ReadsFinitely a)
    (hc : b.ReadsFinitely c)
    (h : (encodeAnd id a c top).run b = .ok e b') (hx : (reading a).run b = .ok x b₁)
    (hy : (reading c).run b₁ = .ok y b₂) : LogicRows b₂ b' e top (· && ·) x y := by
  have hk := run_bind_ok_of h hx
  replace hk := run_bind_ok_of hk hy
  obtain ⟨hord₂, hxfin, hyfin⟩ := reading_pair_finite hord ha hc hx hy
  cases top with
  | true =>
    obtain ⟨R₁, hk, hsem₁⟩ := post_readingRow_bind hk hord₂ (List.forall_mem_singleton.2 hxfin)
    obtain ⟨R₂, hk, hsem₂⟩ := post_readingRow_bind hk hord₂ (List.forall_mem_singleton.2 hyfin)
    cases hk
    refine ⟨fun _ => ⟨rfl, fun W ra rb hxW hyW hra hrb => ?_⟩, fun h => by cases h⟩
    rw [addedRowsAdmit_addRow_right (addsRows_addRow (b := b₂) R₁).1, addedRowsAdmit_addRow,
      hsem₁ W (by simp) (List.forall_mem_singleton.2 hxW),
      hsem₂ W (by simp) (List.forall_mem_singleton.2 hyW)]
    simp only [Option.map_none, Option.getD_none, List.map_cons, List.map_nil, List.sum_cons,
      List.sum_nil, hra, hrb]
    cases ra <;> cases rb <;> simp [one_eq_fin]
  | false =>
    obtain ⟨z, b₃, hz, hk⟩ := run_bind_ok hk
    have hn₃ := indicator_nodes hz
    obtain ⟨_, b₄, hpost, hk⟩ := run_bind_ok hk
    cases hk
    obtain ⟨hadds, hsem⟩ := postAnd_spec (hn₃ ▸ hord₂) (hn₃ ▸ hxfin) (hn₃ ▸ hyfin) hpost
    obtain ⟨rfl, -, -, hstart⟩ := indicator_spec hz hadds.1
    rw [hn₃] at hsem
    refine ⟨fun h => (by cases h), fun _ => ⟨rfl, fun W ra rb t hxW hyW hra hrb hzW h0 _ => ?_⟩⟩
    rw [hstart, hsem W ⟨t, hzW⟩ hxW hyW, hra, hrb, hzW, toRat_fin, toRat_ofBool_and]
    exact and_rows_iff ra rb h0

/-- Conjunction: `x ≥ 1` and `y ≥ 1` at top level, `postAnd` nested. -/
theorem encodeAnd_spec (hord : OperandsPrecede b.nodes) (ha : b.ReadsFinitely a)
    (hc : b.ReadsFinitely c)
    (h : (encodeAnd id a c top).run b = .ok e b') :
    ∃ b₁ b₂ x y, ReadsAs b b₁ a x ∧ ReadsAs b₁ b₂ c y ∧ LogicRows b₂ b' e top (· && ·) x y := by
  obtain ⟨x, b₁, hx, hk⟩ := run_bind_ok h
  obtain ⟨y, b₂, hy, -⟩ := run_bind_ok hk
  exact ⟨b₁, b₂, x, y, reading_spec hx, reading_spec hy, encodeAnd_logicRows hord ha hc h hx hy⟩

/-- Disjunction, once its operands read as `x` and `y`: `x + y ≥ 1` at top level, `postOr`
nested. -/
theorem encodeOr_logicRows (hord : OperandsPrecede b.nodes) (ha : b.ReadsFinitely a)
    (hc : b.ReadsFinitely c)
    (h : (encodeOr id a c top).run b = .ok e b') (hx : (reading a).run b = .ok x b₁)
    (hy : (reading c).run b₁ = .ok y b₂) : LogicRows b₂ b' e top (· || ·) x y := by
  have hk := run_bind_ok_of h hx
  replace hk := run_bind_ok_of hk hy
  obtain ⟨hord₂, hxfin, hyfin⟩ := reading_pair_finite hord ha hc hx hy
  cases top with
  | true =>
    obtain ⟨R, hk, hsem⟩ := post_readingRow_bind hk hord₂ (by simp [hxfin, hyfin])
    cases hk
    refine ⟨fun _ => ⟨rfl, fun W ra rb hxW hyW hra hrb => ?_⟩, fun h => by cases h⟩
    rw [addedRowsAdmit_addRow, hsem W (by simp) (by simp [hxW, hyW])]
    simp only [Option.map_none, Option.getD_none, List.map_cons, List.map_nil, List.sum_cons,
      List.sum_nil, hra, hrb]
    cases ra <;> cases rb <;> simp [one_eq_fin]
  | false =>
    obtain ⟨z, b₃, hz, hk⟩ := run_bind_ok hk
    have hn₃ := indicator_nodes hz
    obtain ⟨_, b₄, hpost, hk⟩ := run_bind_ok hk
    cases hk
    obtain ⟨hadds, hsem⟩ := postOr_spec (hn₃ ▸ hord₂) (hn₃ ▸ hxfin) (hn₃ ▸ hyfin) hpost
    obtain ⟨rfl, -, -, hstart⟩ := indicator_spec hz hadds.1
    rw [hn₃] at hsem
    refine ⟨fun h => (by cases h), fun _ => ⟨rfl, fun W ra rb t hxW hyW hra hrb hzW _ h1 => ?_⟩⟩
    rw [hstart, hsem W ⟨t, hzW⟩ hxW hyW, hra, hrb, hzW, toRat_fin, toRat_ofBool_or]
    exact or_rows_iff ra rb h1

/-- Disjunction: `x + y ≥ 1` at top level, `postOr` nested. -/
theorem encodeOr_spec (hord : OperandsPrecede b.nodes) (ha : b.ReadsFinitely a)
    (hc : b.ReadsFinitely c)
    (h : (encodeOr id a c top).run b = .ok e b') :
    ∃ b₁ b₂ x y, ReadsAs b b₁ a x ∧ ReadsAs b₁ b₂ c y ∧ LogicRows b₂ b' e top (· || ·) x y := by
  obtain ⟨x, b₁, hx, hk⟩ := run_bind_ok h
  obtain ⟨y, b₂, hy, -⟩ := run_bind_ok hk
  exact ⟨b₁, b₂, x, y, reading_spec hx, reading_spec hy, encodeOr_logicRows hord ha hc h hx hy⟩

end Logic


/-- Logic connectives are lowered exactly and tightly. In an arena whose operands precede their
nodes, when the folds that logic reads from the operands meet finite scales and offsets
(`Builder.ReadsFinitely`: the operand's own when it is Boolean, and its cached reading's, as
in every reachable builder by `Builder.Reachable.readsFinitely`), a negation, conjunction or
disjunction reads its operands as 0/1 quantities (`ReadsAs`: the operand itself when it is
Boolean, else its `≠ 0` node, shared through the cache), and the rows it then adds compute the
connective on the readings (`LogicRows`): at top level they hold at 0/1 readings exactly when the
connective does, and nested they leave of the values of the indicator in `[0, 1]` only `1 - a`,
`a · b` or `max a b` (`toRat_ofBool_not`, `toRat_ofBool_and`, `toRat_ofBool_or`). -/
theorem connectives_exact {b : Builder ERat} {id a c : Nat} {top : Bool}
    (hord : OperandsPrecede b.nodes) (ha : b.ReadsFinitely a) (hc : b.ReadsFinitely c) :
    (∀ e b', (encodeNot id a top).run b = .ok e b' →
      ∃ b₁ x, ReadsAs b b₁ a x ∧ LogicRows b₁ b' e top (fun ra _ => !ra) x x) ∧
    (∀ e b', (encodeAnd id a c top).run b = .ok e b' →
      ∃ b₁ b₂ x y, ReadsAs b b₁ a x ∧ ReadsAs b₁ b₂ c y ∧ LogicRows b₂ b' e top (· && ·) x y) ∧
    (∀ e b', (encodeOr id a c top).run b = .ok e b' →
      ∃ b₁ b₂ x y, ReadsAs b b₁ a x ∧ ReadsAs b₁ b₂ c y ∧ LogicRows b₂ b' e top (· || ·) x y) :=
  ⟨fun _ _ h => encodeNot_spec hord ha h, fun _ _ h => encodeAnd_spec hord ha hc h,
    fun _ _ h => encodeOr_spec hord ha hc h⟩

/-- A binary `x` on column `0` and an integer `y ∈ [0, 3]` on column `1`: logic reads `x` as
itself and `y` through a node `y ≠ 0`. -/
def logicNodes : Array (Node ERat) :=
  #[⟨.intVar 0 1 none, .fin 0, .fin 1, false, some (.column 0)⟩,
    ⟨.intVar 0 3 none, .fin 0, .fin 3, false, some (.column 1)⟩]

/-- The two columns of `logicNodes` under the default configuration. -/
def logicBuilder : Builder ERat :=
  { Builder.new with
    nodes := logicNodes
    model := { columns := #[⟨"x0", .integer, .fin 0, .fin 1, none⟩,
      ⟨"x1", .integer, .fin 0, .fin 3, none⟩] } }

theorem logicNodes_operandsPrecede : OperandsPrecede logicNodes := by
  intro i n hn c hc
  rcases i with _ | _ | i
  · simp only [logicNodes, List.getElem?_toArray, List.getElem?_cons_zero, Option.some.injEq] at hn
    subst hn
    simp [Kind.children] at hc
  · simp only [logicNodes, List.getElem?_toArray, List.getElem?_cons_succ,
      List.getElem?_cons_zero, Option.some.injEq] at hn
    subst hn
    simp [Kind.children] at hc
  · simp [logicNodes] at hn

theorem logicNodes_finiteScales : FiniteScales logicNodes := by
  unfold FiniteScales
  intro i n hn
  rcases i with _ | _ | i
  · simp only [logicNodes, List.getElem?_toArray, List.getElem?_cons_zero, Option.some.injEq] at hn
    subst hn
    trivial
  · simp only [logicNodes, List.getElem?_toArray, List.getElem?_cons_succ,
      List.getElem?_cons_zero, Option.some.injEq] at hn
    subst hn
    trivial
  · simp [logicNodes] at hn

/-- The nested connectives over `x` and `y` in `logicBuilder`. -/
theorem logicBuilder_connectives_exact :
    OperandsPrecede logicBuilder.nodes ∧ logicBuilder.ReadsFinitely 1 ∧
      logicBuilder.ReadsFinitely 0 ∧
      (∀ e b', (encodeNot 2 1 false).run logicBuilder = .ok e b' →
        ∃ b₁ x, ReadsAs logicBuilder b₁ 1 x ∧ LogicRows b₁ b' e false (fun ra _ => !ra) x x) ∧
      (∀ e b', (encodeAnd 2 1 0 false).run logicBuilder = .ok e b' →
        ∃ b₁ b₂ x y, ReadsAs logicBuilder b₁ 1 x ∧ ReadsAs b₁ b₂ 0 y ∧
          LogicRows b₂ b' e false (· && ·) x y) ∧
      (∀ e b', (encodeOr 2 1 0 false).run logicBuilder = .ok e b' →
        ∃ b₁ b₂ x y, ReadsAs logicBuilder b₁ 1 x ∧ ReadsAs b₁ b₂ 0 y ∧
          LogicRows b₂ b' e false (· || ·) x y) :=
  ⟨logicNodes_operandsPrecede, logicNodes_finiteScales.readsFinitely 1,
    logicNodes_finiteScales.readsFinitely 0,
    connectives_exact logicNodes_operandsPrecede (logicNodes_finiteScales.readsFinitely 1)
      (logicNodes_finiteScales.readsFinitely 0)⟩

end Lowering

end MipLowering
