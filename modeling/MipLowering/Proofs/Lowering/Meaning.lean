import MipLowering.Proofs.Lowering.Domains

/-!
# What the nodes of a model mean

Read with exact arithmetic, a node of a model stands for a value once its variables have values.
A variable takes a value of its domain; a view `k · x + c`, a sum `c + Σ wᵢ · xᵢ` and an objective
take the value their operands give; a relation, a logic connective, a scheduling pair and a flow
constraint are *conditions*: they take `1` when they hold and `0` when they fail (`Kind.Holds`).
Logic reads an operand as true when its value is not `0`. A posted condition, which the rows read
as the constant `1`, so reads as true exactly when it holds.

`Kind.Denotes` says which values a node takes given the values of its operands, and `denote`
computes them for a whole arena from the values of its variables, each node after its operands.
Over an arena whose operands precede their nodes, `denote` gives every node a value it denotes as
soon as every variable gets a value of its domain (`denote_denotes`). What a node denotes reads the
values of its operands only (`Kind.denotes_congr`), and on kinds whose data are integers
(`Kind.OverIntegers`) it is an integer when they are (`Kind.Denotes.integral`).

## Main definitions

* `MipLowering.Operand.denote`, `MipLowering.Kind.Holds`, `MipLowering.Kind.Denotes`.
* `MipLowering.Kind.Admits` — the integers in the domain of a variable.
* `MipLowering.Kind.valueOf`, `MipLowering.denote` — the values of the nodes of an arena.
* `MipLowering.Kind.OverIntegers` — kinds with integer data.

## Main results

* `MipLowering.Kind.denotes_congr`, `MipLowering.Kind.valueOf_denotes`.
* `MipLowering.denote_denotes` — the values `denote` computes are denoted.
* `MipLowering.Kind.Denotes.integral` — integer data denote integers.
-/

namespace MipLowering

open ERat

/-- The value of an operand: that of its node, or the constant. -/
def Operand.denote (val : Nat → ℚ) : Operand ERat → ℚ
  | .node c => val c
  | .const k => k.toRat

namespace Kind

variable {α : Type}

/-- Relations, logic, scheduling pairs and flow constraints: the kinds that take a truth value. -/
def isCondition : Kind α → Bool
  | .rel .. | .not _ | .and .. | .or .. | .precedence .. | .noOverlap .. | .flow .. => true
  | _ => false

/-- Real and integer variables: the leaves of an arena. -/
def isVariable : Kind α → Bool
  | .floatVar .. | .intVar .. => true
  | _ => false

/-- When a condition holds at the values `val` of the nodes: a relation compares its operands,
logic reads an operand as true when its value is not `0`, a precedence pair asks
`first + coefs[0] ≤ second`, a no-overlap pair one of its two orderings, and a flow constraint its
occurrence condition. The kinds that are not conditions hold everywhere. -/
def Holds (k : Kind ERat) (val : Nat → ℚ) : Prop :=
  match k with
  | .rel r lhs rhs => r.Holds (val lhs) (rhs.denote val)
  | .not a => val a = 0
  | .and a b => val a ≠ 0 ∧ val b ≠ 0
  | .or a b => val a ≠ 0 ∨ val b ≠ 0
  | .precedence first second coefs => val first + (coefs[0]?.getD 0 : ℤ) ≤ val second
  | .noOverlap first second coefs =>
    val first + (coefs[0]?.getD 0 : ℤ) ≤ val second ∨ val second + (coefs[1]?.getD 0 : ℤ) ≤ val first
  | .flow kind vars values lb ub => FlowHolds kind (values.zip (lb.zip ub)) (vars.map val)
  | .floatVar .. | .intVar .. | .view .. | .sum .. | .objective .. => True

instance decidableHolds (k : Kind ERat) (val : Nat → ℚ) : Decidable (k.Holds val) :=
  match k with
  | .rel r lhs rhs => inferInstanceAs (Decidable (r.Holds (val lhs) (rhs.denote val)))
  | .not a => inferInstanceAs (Decidable (val a = 0))
  | .and a b => inferInstanceAs (Decidable (val a ≠ 0 ∧ val b ≠ 0))
  | .or a b => inferInstanceAs (Decidable (val a ≠ 0 ∨ val b ≠ 0))
  | .precedence first second coefs =>
    inferInstanceAs (Decidable (val first + (coefs[0]?.getD 0 : ℤ) ≤ val second))
  | .noOverlap first second coefs =>
    inferInstanceAs (Decidable (val first + (coefs[0]?.getD 0 : ℤ) ≤ val second ∨
      val second + (coefs[1]?.getD 0 : ℤ) ≤ val first))
  | .flow kind vars values lb ub =>
    inferInstanceAs (Decidable (FlowHolds kind (values.zip (lb.zip ub)) (vars.map val)))
  | .floatVar .. | .intVar .. | .view .. | .sum .. | .objective .. => isTrue trivial

/-- The values `x` a node of this kind takes when its operands take the values `val`: the values
`Kind.Takes` allows, and for a condition `1` exactly when it holds. -/
def Denotes (k : Kind ERat) (val : Nat → ℚ) (x : ℚ) : Prop :=
  k.Takes val x ∧ (k.isCondition = true → (x = 1 ↔ k.Holds val))

/-- The integers a variable may take: its listed values, or those between its bounds. Every
integer is admitted for the other kinds. -/
def Admits (k : Kind ERat) (z : ℤ) : Prop :=
  match k with
  | .floatVar l u => l ≤ fin z ∧ fin z ≤ u
  | .intVar _ _ (some D) => z ∈ D
  | .intVar l u none => l ≤ z ∧ z ≤ u
  | .view .. | .sum .. | .rel .. | .not _ | .and .. | .or .. | .precedence .. | .noOverlap ..
  | .flow .. | .objective .. => True

/-- The value of a node of this kind when its operands take the values `val`, a variable taking
its own value `own`. -/
def valueOf (k : Kind ERat) (val : Nat → ℚ) (own : ℚ) : ℚ :=
  match k with
  | .floatVar .. | .intVar .. => own
  | .view _ base scale offset => scale.toRat * val base + offset.toRat
  | .sum vars weights offset =>
    offset.toRat + ((vars.zip weights).map fun t => (t.2 : ℚ) * val t.1).sum
  | .objective _ expr => val expr
  | .rel .. | .not _ | .and .. | .or .. | .precedence .. | .noOverlap .. | .flow .. =>
    if k.Holds val then 1 else 0

/-- The data of a kind are integers: it is not a real variable, and its scale, offset or constant
is an integer. -/
def OverIntegers : Kind ERat → Prop
  | .floatVar .. => False
  | .view _ _ scale offset => ∃ zs zo : ℤ, scale = fin zs ∧ offset = fin zo
  | .sum _ _ offset => ∃ z : ℤ, offset = fin z
  | .rel _ _ (.const k) => ∃ z : ℤ, k = fin z
  | .intVar .. | .rel _ _ (.node _) | .not _ | .and .. | .or .. | .precedence .. | .noOverlap ..
  | .flow .. | .objective .. => True

/-! ### Values read from the operands only -/

section Congr

variable {k : Kind ERat} {val val' : Nat → ℚ}

theorem holds_congr (h : ∀ c ∈ k.children, val c = val' c) : k.Holds val ↔ k.Holds val' := by
  cases k with
  | rel r lhs rhs =>
    cases rhs with
    | node c =>
      simp only [children, List.mem_cons, forall_eq_or_imp] at h
      simp only [Holds, Operand.denote, h.1, h.2.1]
    | const q =>
      simp only [children, List.mem_singleton, forall_eq] at h
      simp only [Holds, Operand.denote, h]
  | flow kind vars values lb ub =>
    simp only [Holds, children] at h ⊢
    rw [List.map_congr_left h]
  | _ => simp_all [Holds, children]

theorem takes_congr (h : ∀ c ∈ k.children, val c = val' c) {x : ℚ} :
    k.Takes val x ↔ k.Takes val' x := by
  cases k with
  | sum vars weights offset =>
    simp only [Takes, children] at h ⊢
    rw [List.map_congr_left fun t ht => by rw [h t.1 (List.of_mem_zip ht).1]]
  | _ => simp_all [Takes, children]

theorem denotes_congr (h : ∀ c ∈ k.children, val c = val' c) {x : ℚ} :
    k.Denotes val x ↔ k.Denotes val' x := by
  rw [Denotes, Denotes, takes_congr h, holds_congr h]

theorem valueOf_congr (h : ∀ c ∈ k.children, val c = val' c) (own : ℚ) :
    k.valueOf val own = k.valueOf val' own := by
  cases k with
  | sum vars weights offset =>
    simp only [valueOf, children] at h ⊢
    rw [List.map_congr_left fun t ht => by rw [h t.1 (List.of_mem_zip ht).1]]
  | floatVar | intVar => rfl
  | view | objective => simp_all [valueOf, children]
  | _ => simp only [valueOf, holds_congr h]

end Congr

/-- A condition takes `1` when it holds and `0` when it fails. -/
theorem Denotes.eq_ite {k : Kind ERat} {val : Nat → ℚ} {x : ℚ} (h : k.Denotes val x)
    (hk : k.isCondition = true) : x = if k.Holds val then 1 else 0 := by
  have h01 : x = 0 ∨ x = 1 := by
    cases k <;> first | exact h.1 | cases hk
  split_ifs with hh
  · exact (h.2 hk).2 hh
  · rcases h01 with rfl | rfl
    · rfl
    · exact absurd ((h.2 hk).1 rfl) hh

/-- A variable given a value of its domain, or any other node given the value its operands give,
takes that value. -/
theorem valueOf_denotes (k : Kind ERat) (val : Nat → ℚ) {own : ℤ} (h : k.Admits own) :
    k.Denotes val (k.valueOf val own) := by
  cases k with
  | floatVar l u => exact ⟨h, fun hk => by cases hk⟩
  | intVar l u vs =>
    refine ⟨⟨own, rfl, ?_⟩, fun hk => by cases hk⟩
    cases vs <;> exact h
  | view | sum | objective => exact ⟨rfl, fun hk => by cases hk⟩
  | _ =>
    refine ⟨?_, fun _ => ?_⟩ <;> simp only [Takes, valueOf] <;> split_ifs with hh <;>
      simp [hh]

/-! ### Integer data -/

/-- A sum of integer terms is an integer. -/
theorem exists_int_sum {β : Type} (f : β → ℚ) :
    ∀ l : List β, (∀ t ∈ l, ∃ z : ℤ, f t = z) → ∃ z : ℤ, (l.map f).sum = z
  | [], _ => ⟨0, by simp⟩
  | t :: l, h => by
    obtain ⟨z, hz⟩ := h t List.mem_cons_self
    obtain ⟨s, hs⟩ := exists_int_sum f l fun t ht => h t (List.mem_cons_of_mem _ ht)
    exact ⟨z + s, by rw [List.map_cons, List.sum_cons, hz, hs]; push_cast; rfl⟩

/-- Over integer data, a node whose operands take integer values takes an integer value. -/
theorem Denotes.integral {k : Kind ERat} {val : Nat → ℚ} {x : ℚ} (h : k.Denotes val x)
    (hk : k.OverIntegers) (hops : ∀ c ∈ k.children, ∃ z : ℤ, val c = z) : ∃ z : ℤ, x = z := by
  cases k with
  | floatVar => exact hk.elim
  | intVar l u vs =>
    obtain ⟨z, hz, -⟩ := h.1
    exact ⟨z, hz⟩
  | view sh base scale offset =>
    obtain ⟨zs, zo, rfl, rfl⟩ := hk
    obtain ⟨zb, hzb⟩ := hops base (by simp [children])
    refine ⟨zs * zb + zo, ?_⟩
    rw [show x = _ from h.1, toRat_fin, toRat_fin, hzb]
    push_cast
    rfl
  | sum vars weights offset =>
    obtain ⟨zo, rfl⟩ := hk
    obtain ⟨s, hs⟩ := exists_int_sum (fun t : Nat × Int => (t.2 : ℚ) * val t.1) (vars.zip weights)
      fun t ht => by
        obtain ⟨z, hz⟩ := hops t.1 (List.of_mem_zip ht).1
        exact ⟨t.2 * z, by rw [hz]; push_cast; rfl⟩
    refine ⟨zo + s, ?_⟩
    rw [show x = _ from h.1, toRat_fin, hs]
    push_cast
    rfl
  | objective sense expr => exact hops expr (by simp [children]) |>.imp fun z hz => h.1.trans hz
  | _ =>
    rcases h.1 with rfl | rfl
    · exact ⟨0, by simp⟩
    · exact ⟨1, by simp⟩

end Kind

/-! ### The values of an arena -/

/-- The value of node `id` of an arena when each variable `j` takes the value `σ j`, computed from
the values of its operands; an operand that does not precede its node, and a node outside the
arena, read as `0`. -/
def denote (nodes : Array (Node ERat)) (σ : Nat → ℤ) (id : Nat) : ℚ :=
  match nodes[id]? with
  | none => 0
  | some n => n.kind.valueOf (fun c => if _h : c < id then denote nodes σ c else 0) (σ id)
termination_by id

section Denote

variable {nodes : Array (Node ERat)} {σ : Nat → ℤ} {id : Nat} {n : Node ERat}

theorem denote_of_getElem? (hn : nodes[id]? = some n) :
    denote nodes σ id = n.kind.valueOf (fun c => if _h : c < id then denote nodes σ c else 0) (σ id) := by
  rw [denote, hn]

/-- Over an arena whose operands precede their nodes, a node takes the value its kind gives the
values of its operands. -/
theorem denote_eq_valueOf (hord : OperandsPrecede nodes) (hn : nodes[id]? = some n) :
    denote nodes σ id = n.kind.valueOf (denote nodes σ) (σ id) := by
  rw [denote_of_getElem? hn]
  exact Kind.valueOf_congr (fun c hc => dif_pos (hord id n hn c hc)) _

/-- Over an arena whose operands precede their nodes, every node whose variable, if it is one, takes
a value of its domain, takes a value it denotes. -/
theorem denote_denotes (hord : OperandsPrecede nodes) (hn : nodes[id]? = some n)
    (hσ : n.kind.Admits (σ id)) : n.kind.Denotes (denote nodes σ) (denote nodes σ id) := by
  rw [denote_eq_valueOf hord hn]
  exact Kind.valueOf_denotes _ _ hσ

end Denote

end MipLowering
