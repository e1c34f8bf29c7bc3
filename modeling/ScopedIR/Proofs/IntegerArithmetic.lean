import Mathlib.Control.Monad.Basic
import ScopedIR.Lowering.Module
import ScopedIR.Machine.Builtin
import ScopedIR.Machine.Run

/-!
# Integer arithmetic

The built-in arithmetic of Integer gives the exact result of every operation, or fails because there is
none of 64 bits. Division and both remainders go by one quotient: where it has none, the remainders fail
with it, although they are zero.

Main statement: `respond_arithmetic`.
-/

namespace ScopedIR.Builtin

/-- An arithmetic operation with what it is applied to beside the receiver. -/
inductive Arithmetic where
  | add (b : Int64)
  | sub (b : Int64)
  | mul (b : Int64)
  | div (b : Int64) (hb : b ≠ 0)
  | mod (b : Int64) (hb : b ≠ 0)
  | rem (b : Int64) (hb : b ≠ 0)
  | negate
  | inc
  | dec
  | abs

namespace Arithmetic

/-- The method of an operation. -/
def method : Arithmetic → String
  | add _ => "_add"
  | sub _ => "_sub"
  | mul _ => "_mul"
  | div .. => "_div"
  | mod .. => "_mod"
  | rem .. => "_rem"
  | negate => "_negate"
  | inc => "_inc"
  | dec => "_dec"
  | abs => "_abs"

/-- The arguments of an operation. -/
def args : Arithmetic → List (Option Value)
  | add b | sub b | mul b | div b _ | mod b _ | rem b _ => [some (.integer b)]
  | negate | inc | dec | abs => []

/-- `q` is the quotient of `a` by `b` rounded towards zero; it leaves `r`, of the sign of `a`. -/
def Truncates (a b q r : Int) : Prop := a = b * q + r ∧ r.natAbs < b.natAbs ∧ 0 ≤ a * r

/-- The exact result of an operation on `a` is `z`. -/
def Yields (a : Int) : Arithmetic → Int → Prop
  | add b, z => z = a + b.toInt
  | sub b, z => z = a - b.toInt
  | mul b, z => z = a * b.toInt
  | div b _, z => ∃ r, Truncates a b.toInt z r
  | mod b _, z => ∃ q, a = b.toInt * q + z ∧ 0 ≤ z ∧ z < b.toInt.natAbs
  | rem b _, z => ∃ q, Truncates a b.toInt q z
  | negate, z => z = -a
  | inc, z => z = a + 1
  | dec, z => z = a - 1
  | abs, z => z = a.natAbs

/-- The operation is a remainder whose quotient is too large. -/
def Overflows (a : Int64) : Arithmetic → Prop
  | mod b _ | rem b _ => a = Int64.minValue ∧ b = -1
  | _ => False

end Arithmetic

open Arithmetic

/-- The integer is one of 64 bits. -/
def InRange (z : Int) : Prop := Int64.minValue.toInt ≤ z ∧ z ≤ Int64.maxValue.toInt

instance (z : Int) : Decidable (InRange z) := inferInstanceAs (Decidable (_ ∧ _))

/-- The answer to a call on an integer, if it is the integer that `e` computes. -/
def integerReply (a : Int64) (e : Except Fault Int64) : Except Fault CallReply :=
  e.map fun n => { outcome := .object (.integer n), receiver := .object (.integer a) }

variable (site : CallSite)

theorem toInt_ofInt {z : Int} (h : InRange z) : (Int64.ofInt z).toInt = z :=
  Text.toInt_of_int64? (if_pos h)

theorem exact_of_inRange {z : Int} (h : InRange z) : exact site z = .ok (Int64.ofInt z) := by
  have hsome : Text.int64? z = some (Int64.ofInt z) := if_pos h
  rw [exact, hsome]

theorem exact_of_not_inRange {z : Int} (h : ¬ InRange z) :
    exact site z = failed site "overflowed" := by
  have hnone : Text.int64? z = none := if_neg h
  rw [exact, hnone]

theorem truncates_tdiv_tmod (a : Int) {b : Int} (hb : b ≠ 0) :
    Truncates a b (a.tdiv b) (a.tmod b) := by
  refine ⟨(Int.mul_tdiv_add_tmod a b).symm, ?_, ?_⟩
  · rw [Int.natAbs_tmod]
    exact Nat.mod_lt _ (Int.natAbs_pos.2 hb)
  · rcases Int.le_total 0 a with ha | ha
    · exact Int.mul_nonneg ha (Int.tmod_nonneg b ha)
    · have hneg := Int.tmod_nonneg b (Int.neg_nonneg_of_nonpos ha)
      rw [Int.neg_tmod] at hneg
      exact Int.mul_nonneg_of_nonpos_of_nonpos ha (Int.nonpos_of_neg_nonneg hneg)

theorem toInt_ne_zero {b : Int64} (hb : b ≠ 0) : b.toInt ≠ 0 :=
  fun h => hb (Int64.toInt_inj.1 h)

/-- A division that does not overflow is exact. -/
theorem divide_eq (op : Int → Int → Int) {a b : Int64} (hb : b ≠ 0)
    (h : ¬ (a = Int64.minValue ∧ b = -1)) :
    divide site op a [some (.integer b)] = exact site (op a.toInt b.toInt) := by
  simp [divide, integerArg, hb, h, bind, Except.bind]

theorem divide_least (op : Int → Int → Int) :
    divide site op Int64.minValue [some (.integer (-1))] = failed site "overflowed" := by
  simp [divide, integerArg, bind, Except.bind]

theorem reply_bind (a : Int64) (e : Except Fault Int64) :
    ((e >>= fun n => pure (Value.integer n)) >>= fun v =>
      pure { outcome := .object v, receiver := .object (.integer a) }) = integerReply a e := by
  cases e <;> rfl

/-- An operation answers what it computes, which is its exact result unless it overflows. -/
theorem respond_eq (a : Int64) (op : Arithmetic) :
    ∃ z, op.Yields a.toInt z ∧ ∃ e,
      respond { site with method := op.method } (.object (.integer a)) op.args = integerReply a e ∧
      (¬ op.Overflows a → e = exact { site with method := op.method } z) ∧
      (op.Overflows a → e = failed { site with method := op.method } "overflowed") := by
  cases op with
  | div b hb =>
    refine ⟨_, ⟨_, truncates_tdiv_tmod a.toInt (toInt_ne_zero hb)⟩, _, reply_bind a _,
      fun _ => ?_, False.elim⟩
    by_cases hleast : a = Int64.minValue ∧ b = -1
    · obtain ⟨rfl, rfl⟩ := hleast
      exact (divide_least _ _).trans (exact_of_not_inRange _ (by decide)).symm
    · exact divide_eq _ _ hb hleast
  | mod b hb =>
    have hb' := toInt_ne_zero hb
    refine ⟨_, ⟨_, (Int.mul_ediv_add_emod _ _).symm, Int.emod_nonneg _ hb', Int.emod_lt _ hb'⟩, _,
      reply_bind a _, divide_eq _ _ hb, ?_⟩
    rintro ⟨rfl, rfl⟩
    exact divide_least _ _
  | rem b hb =>
    refine ⟨_, ⟨_, truncates_tdiv_tmod a.toInt (toInt_ne_zero hb)⟩, _, reply_bind a _,
      divide_eq _ _ hb, ?_⟩
    rintro ⟨rfl, rfl⟩
    exact divide_least _ _
  | _ => exact ⟨_, rfl, _, reply_bind a _, fun _ => rfl, False.elim⟩

/-- Every operation answers its exact result and leaves the receiver as it is, unless there is no such
integer of 64 bits or it is a remainder whose quotient overflows; then it fails. -/
theorem respond_arithmetic (a : Int64) (op : Arithmetic) :
    ∃ z, op.Yields a.toInt z ∧
      (InRange z ∧ ¬ op.Overflows a → ∃ n : Int64, n.toInt = z ∧
        respond { site with method := op.method } (.object (.integer a)) op.args =
          .ok { outcome := .object (.integer n), receiver := .object (.integer a) }) ∧
      (¬ (InRange z ∧ ¬ op.Overflows a) →
        respond { site with method := op.method } (.object (.integer a)) op.args =
          failed { site with method := op.method } "overflowed") := by
  obtain ⟨z, hz, e, he, hexact, hfailed⟩ := respond_eq site a op
  rw [he]
  refine ⟨z, hz, ?_, ?_⟩
  · rintro ⟨hrange, hno⟩
    exact ⟨_, toInt_ofInt hrange, by rw [hexact hno, exact_of_inRange _ hrange]; rfl⟩
  · intro hout
    have hfails : e = failed { site with method := op.method } "overflowed" := by
      by_cases ho : op.Overflows a
      · exact hfailed ho
      · rw [hexact ho, exact_of_not_inRange _ fun hrange => hout ⟨hrange, ho⟩]
    rw [hfails]
    rfl

/-- The remainder of the least integer by minus one is zero, and there is no answer. -/
theorem respond_least_rem :
    (rem (-1) (by decide)).Yields Int64.minValue.toInt 0 ∧ InRange 0 ∧
      respond { target := "r", targetType := TypeName.integer, method := "_rem",
                returnType := TypeName.integer, args := ["b"] }
        (.object (.integer Int64.minValue)) [some (.integer (-1))] =
        .error (.callFailed "`r._rem(b)` overflowed") :=
  ⟨⟨9223372036854775808, by decide, by decide, by decide⟩, by decide, rfl⟩

end ScopedIR.Builtin
