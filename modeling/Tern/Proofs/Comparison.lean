import Tern.Operator
import Tern.Proofs.TextOrder

/-!
# Comparisons are consistent

Any two values can be asked for equality, and the answer is an equivalence that tells types apart.
Only two numbers or two texts have an order besides. It is total and transitive, it agrees with
equality, and the four operators that ask for it agree with each other.

## Key results

- `BinaryOp.equivalence_eq`: equality is an equivalence
- `Value.Ordered.order?_eq`: the order of two values agrees with equality
- `BinaryOp.consistent_of_ordered`: the operators agree with the order
- `comparison_consistent`: all comparisons of all values
-/

namespace Tern

/-! ### Equality -/

namespace Value

/-- The value without what a function is made of: only its `id` is left. -/
private def outline : Value → Value
  | function f =>
    function { f with name := "", parameters := [], returns := none, body := .tokens [] }
  | other => other

private theorem type?_outline (v : Value) : v.outline.type? = v.type? := by
  cases v <;> rfl

/-- Values are equal only if they have the same type. -/
theorem equals_of_type?_ne {a b : Value} (h : a.type? ≠ b.type?) : a.equals b = false := by
  cases a <;> cases b <;> first | rfl | exact absurd rfl h

/-- Values are equal if they are the same but for what functions are made of. -/
private theorem equals_iff (a b : Value) : a.equals b = true ↔ a.outline = b.outline := by
  by_cases htype : a.type? = b.type?
  · cases a <;> cases b <;> cases htype
    -- all but `void` are compared by what they carry
    any_goals exact decide_eq_true_iff.trans (by simp [outline])
    exact iff_of_true rfl rfl
  · refine iff_of_false (by simp [equals_of_type?_ne htype]) fun houtline => htype ?_
    rw [← type?_outline a, houtline, type?_outline]

/-! ### Order -/

/-- The values have an order: both are numbers, or both are texts. -/
inductive Ordered : Value → Value → Prop
  | numbers (m n : Number) : Ordered (number m) (number n)
  | texts (s t : String) : Ordered (text s) (text t)

variable {a b c : Value}

/-- Nothing else has an order. -/
theorem order?_of_not_ordered (h : ¬a.Ordered b) : a.order? b = none := by
  -- every case but these two compares values of different types, or of types without an order
  cases a with
  | number m =>
    cases b with
    | number n => exact absurd (.numbers m n) h
    | _ => rfl
  | text s =>
    cases b with
    | text t => exact absurd (.texts s t) h
    | _ => rfl
  | _ => rfl

/-- Only values that have an order compare. -/
theorem ordered_of_order? {order : Ordering} (h : a.order? b = some order) : a.Ordered b := by
  by_contra hnot
  rw [order?_of_not_ordered hnot] at h
  cases h

/-- The order agrees with equality, and is the opposite one the other way around. -/
theorem Ordered.order?_eq (h : a.Ordered b) : ∃ order, a.order? b = some order ∧
    b.order? a = some order.swap ∧ (order = .eq ↔ a.equals b = true) := by
  cases h with
  | numbers m n =>
    exact ⟨compare m n, rfl, congrArg some Std.OrientedOrd.eq_swap,
      Std.LawfulEqOrd.compare_eq_iff_eq.trans decide_eq_true_iff.symm⟩
  | texts s t =>
    exact ⟨compare s t, rfl, congrArg some Std.OrientedOrd.eq_swap,
      Std.LawfulEqOrd.compare_eq_iff_eq.trans decide_eq_true_iff.symm⟩

/-- The order is transitive. -/
theorem order?_trans (h : a.order? b = some .lt) (h' : b.order? c = some .lt) :
    a.order? c = some .lt := by
  -- all three are numbers, or all three are texts
  cases ordered_of_order? h with
  | numbers m n =>
    cases ordered_of_order? h' with
    | numbers _ k =>
      exact congrArg some (Std.TransCmp.lt_trans (Option.some.inj h) (Option.some.inj h'))
  | texts s t =>
    cases ordered_of_order? h' with
    | texts _ u =>
      exact congrArg some (Std.TransCmp.lt_trans (Option.some.inj h) (Option.some.inj h'))

end Value

/-! ### Operators -/

namespace BinaryOp

/-- The comparison holds. -/
def Holds (op : BinaryOp) (a b : Value) : Prop := op.apply a b = .ok (.boolean true)

/-- The operators that ask for the order of their operands. -/
def relational : List BinaryOp := [lt, gt, le, ge]

variable {a b : Value} {order : Ordering}

/-- The operator asks for equality. -/
theorem eq_holds_iff : eq.Holds a b ↔ a.equals b = true := by
  simp [Holds, apply]

/-- Equality is an equivalence. -/
theorem equivalence_eq : Equivalence eq.Holds := by
  -- equal are those of which the same is left
  have heq : eq.Holds = InvImage (· = ·) Value.outline := by
    funext a b
    exact propext (eq_holds_iff.trans (Value.equals_iff a b))
  rw [heq]
  exact InvImage.equivalence _ _ eq_equivalence

/-- What the relational operators give where there is an order. -/
theorem apply_of_order (h : a.order? b = some order) :
    lt.apply a b = .ok (.boolean (order = .lt)) ∧ gt.apply a b = .ok (.boolean (order = .gt)) ∧
      le.apply a b = .ok (.boolean (order ≠ .gt)) ∧
      ge.apply a b = .ok (.boolean (order ≠ .lt)) := by
  simp only [apply, onOrder, h, and_self]

/-- Where there is no order, the relational operators fail. -/
theorem apply_of_not_ordered (h : ¬a.Ordered b) {op : BinaryOp} (hop : op ∈ relational) :
    op.apply a b = .error (.operandMismatch op.text a.typeName b.typeName) := by
  have hnone := Value.order?_of_not_ordered h
  simp only [relational, List.mem_cons, List.not_mem_nil, or_false] at hop
  rcases hop with rfl | rfl | rfl | rfl <;> simp only [apply, onOrder, hnone, mismatch]

/-- The lesser operand is on the left. -/
theorem lt_holds_iff : lt.Holds a b ↔ a.order? b = some .lt := by
  unfold Holds apply onOrder
  cases a.order? b <;> simp

/-- The lesser operand is on the right. -/
theorem gt_holds_iff : gt.Holds a b ↔ a.order? b = some .gt := by
  unfold Holds apply onOrder
  cases a.order? b <;> simp

/-- The operator that holds of values that compare this way. -/
def ofOrdering : Ordering → BinaryOp
  | .lt => lt
  | .eq => eq
  | .gt => gt

/-- Of less, equal and greater the one holds that the order says. -/
theorem holds_iff_ofOrdering (h : a.order? b = some order)
    (hequal : order = .eq ↔ a.equals b = true) {op : BinaryOp} (hop : op ∈ [lt, eq, gt]) :
    op.Holds a b ↔ op = ofOrdering order := by
  -- `==` does not ask for the order, so that it agrees is a premise
  simp only [List.mem_cons, List.not_mem_nil, or_false] at hop
  rcases hop with rfl | rfl | rfl
  · rw [lt_holds_iff, h]
    cases order <;> simp [ofOrdering]
  · rw [eq_holds_iff, ← hequal]
    cases order <;> simp [ofOrdering]
  · rw [gt_holds_iff, h]
    cases order <;> simp [ofOrdering]

/-- The comparisons of two values agree with each other. -/
structure Consistent (a b : Value) : Prop where
  one : ∃! op, op ∈ [lt, eq, gt] ∧ op.Holds a b
  le : ∃ r, gt.apply a b = .ok (.boolean r) ∧ le.apply a b = .ok (.boolean !r)
  ge : ∃ r, lt.apply a b = .ok (.boolean r) ∧ ge.apply a b = .ok (.boolean !r)
  swap : lt.apply a b = gt.apply b a

/-- Where there is an order, all comparisons agree. -/
theorem consistent_of_ordered (h : a.Ordered b) : Consistent a b := by
  obtain ⟨order, horder, hswap, hequal⟩ := h.order?_eq
  obtain ⟨hlt, hgt, hle, hge⟩ := apply_of_order horder
  obtain ⟨-, hgt', -, -⟩ := apply_of_order hswap
  -- one of the three holds
  constructor
  · -- the one that holds is named after the order
    have hmem : ofOrdering order ∈ [lt, eq, gt] := by
      cases order <;> simp [ofOrdering]
    refine ⟨ofOrdering order, ⟨hmem, (holds_iff_ofOrdering horder hequal hmem).mpr rfl⟩, ?_⟩
    rintro op ⟨hop, hholds⟩
    exact (holds_iff_ofOrdering horder hequal hop).mp hholds
  -- `<=` is the negation of `>`, and `>=` of `<`
  · exact ⟨_, hgt, by rw [hle]; simp⟩
  · exact ⟨_, hlt, by rw [hge]; simp⟩
  -- swapping the operands swaps the order
  · rw [hlt, hgt']
    cases order <;> rfl

/-- Numbers are ordered by size. -/
theorem lt_holds_number (m n : Number) :
    lt.Holds (.number m) (.number n) ↔ m.toInt < n.toInt := by
  rw [lt_holds_iff, ← Int64.lt_iff_toInt_lt]
  exact Option.some_inj.trans compareOfLessAndEq_eq_lt

/-- Texts are ordered as texts. -/
theorem lt_holds_text (s t : String) : lt.Holds (.text s) (.text t) ↔ s < t := by
  rw [lt_holds_iff]
  exact Option.some_inj.trans compareOfLessAndEq_eq_lt

end BinaryOp

/-! ### All of it -/

/-- Comparisons are consistent. Equality never fails and is an equivalence that tells types apart,
and inequality is its opposite. Any two numbers and any two texts are ordered, and all operators
agree on how: numbers by size, and texts by their bytes in UTF-8 or, what is the same, by the code
points of their characters. Whatever else is compared by order is a mismatch. -/
theorem comparison_consistent :
    (∀ a b : Value, ∃ r, BinaryOp.eq.apply a b = .ok (.boolean r) ∧
      BinaryOp.ne.apply a b = .ok (.boolean !r)) ∧
    Equivalence BinaryOp.eq.Holds ∧
    (∀ a b : Value, a.type? ≠ b.type? → BinaryOp.eq.apply a b = .ok (.boolean false)) ∧
    (∀ a b : Value, a.Ordered b → BinaryOp.Consistent a b) ∧
    (∀ a b c : Value, BinaryOp.lt.Holds a b → BinaryOp.lt.Holds b c → BinaryOp.lt.Holds a c) ∧
    (∀ m n : Number, BinaryOp.lt.Holds (.number m) (.number n) ↔ m.toInt < n.toInt) ∧
    (∀ s t : String,
      (BinaryOp.lt.Holds (.text s) (.text t) ↔
        List.Lex (· < ·) s.toUTF8.data.toList t.toUTF8.data.toList) ∧
      (BinaryOp.lt.Holds (.text s) (.text t) ↔
        List.Lex (· < ·) (s.toList.map Char.toNat) (t.toList.map Char.toNat))) ∧
    ∀ a b : Value, ¬a.Ordered b → ∀ op ∈ BinaryOp.relational,
      op.apply a b = .error (.operandMismatch op.text a.typeName b.typeName) := by
  -- equality compares any values, so it has no fault; the order is of numbers and of texts
  refine ⟨fun a b => ⟨a.equals b, rfl, rfl⟩, BinaryOp.equivalence_eq, ?_, ?_, ?_,
    BinaryOp.lt_holds_number, ?_, ?_⟩
  · intro a b htype
    rw [BinaryOp.apply, Value.equals_of_type?_ne htype]
  · intro a b hordered
    exact BinaryOp.consistent_of_ordered hordered
  · intro a b c hab hbc
    rw [BinaryOp.lt_holds_iff] at hab hbc ⊢
    exact Value.order?_trans hab hbc
  · intro s t
    rw [BinaryOp.lt_holds_text]
    exact ⟨text_lt_iff_bytes s t, text_lt_iff_scalars s t⟩
  · intro a b hnot op hop
    exact BinaryOp.apply_of_not_ordered hnot hop

/-- Two texts that UTF-16 would order the other way around, a number and a text that reads the same,
and numbers on both sides of zero. -/
theorem comparison_consistent_mixed :
    BinaryOp.Consistent (.text "\uffff") (.text "😀") ∧
      BinaryOp.lt.Holds (.text "\uffff") (.text "😀") ∧
      BinaryOp.eq.apply (.number 1) (.text "1") = .ok (.boolean false) ∧
      BinaryOp.le.apply (.number 1) (.text "1") =
        .error (.operandMismatch "<=" "number" "string") ∧
      BinaryOp.lt.Holds (.number Int64.minValue) (.number Int64.maxValue) := by
  obtain ⟨-, -, htypes, hordered, htrans, hnumbers, htexts, hmixed⟩ := comparison_consistent
  refine ⟨hordered _ _ (.texts _ _), (htexts _ _).2.mpr (.rel (by decide)), htypes _ _ (by decide),
    hmixed _ _ (fun h => by cases h) .le (by decide), ?_⟩
  exact htrans _ (.number 0) _ ((hnumbers _ _).mpr (by decide)) ((hnumbers _ _).mpr (by decide))

end Tern
