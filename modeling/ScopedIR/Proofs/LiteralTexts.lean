import ScopedIR.Escape.Placement
import ScopedIR.Machine.Exec
import ScopedIR.Proofs.Succeeding

/-!
# Literals and their texts

A literal goes through lowering, and through placing on the stack, as a text; only the machine reads it.
What it reads is the integer, the truth value or the text that the literal was written for.

Main statement: `literals_round_trip`.
-/

namespace ScopedIR

open Lowering

namespace Text

theorem readDigits_repr (n : Nat) : readDigits (Nat.repr n).toList = some n := by
  have hdigits : (Nat.toDigits 10 n).all Char.isDigit = true :=
    List.all_eq_true.2 fun c hc => Nat.isDigit_of_mem_toDigits (by decide) (by decide) hc
  rw [Nat.toList_repr, readDigits, if_pos ⟨Nat.toDigits_ne_nil, hdigits⟩,
    Nat.ofDigitChars_toDigits (by decide) (by decide)]

/-- A numeral that begins with a digit has no sign. -/
theorem readInt_repr (n : Nat) : readInt (Nat.repr n).toList = some (n : Int) := by
  have hdigit : ∀ c ∈ (Nat.repr n).toList, c.isDigit = true := fun c hc =>
    Nat.isDigit_of_mem_toDigits (by decide) (by decide) (Nat.toList_repr ▸ hc)
  unfold readInt
  split
  · next ds hds => exact absurd (hdigit '-' (hds ▸ List.mem_cons_self)) (by decide)
  · next ds hds => exact absurd (hdigit '+' (hds ▸ List.mem_cons_self)) (by decide)
  · rw [readDigits_repr]
    rfl

theorem readInt_intRepr (z : Int) : readInt (Int.repr z).toList = some z := by
  cases z with
  | ofNat n => exact readInt_repr n
  | negSucc n =>
    have htext : (Int.repr (.negSucc n)).toList = '-' :: (Nat.repr (n + 1)).toList :=
      String.toList_append
    rw [htext, readInt, readDigits_repr]
    rfl

@[simp] theorem readInt64_ofInt64 (n : Int64) : readInt64 (ofInt64 n) = some n := by
  have hrange : Int64.minValue.toInt ≤ n.toInt ∧ n.toInt ≤ Int64.maxValue.toInt :=
    ⟨n.minValue_le_toInt, n.toInt_le⟩
  rw [readInt64, ofInt64, readInt_intRepr, Option.bind_some, int64?, if_pos hrange,
    Int64.ofInt_toInt]

end Text

theorem Value.unquote_quoted (s : String) : unquote ("\"" ++ s ++ "\"") = s := by
  have hchars : ("\"" ++ s ++ "\"").toList = '"' :: (s.toList ++ ['"']) := by simp
  simp [unquote, hchars]

/-- Performed, the instruction binds `t` to a new object of value `v`. -/
structure Loads (i : Instr) (t : String) (v : Value) : Prop where
  opcode : i.opcode = .loadLiteral ∨ i.opcode = .stackAllocLiteral
  result : i.result = some t
  performs : ∀ {σ : Type} (leave : String → Exec σ Unit) (cfg : Config σ) (rounds : Nat)
    (payload : Payload (Exec σ Control)), Exec.perform leave cfg rounds i payload = Exec.create i v

theorem loads_literal {text type t : String} {v : Value} (h : Value.ofLiteral? text type = some v)
    {i : Instr} (hop : i.opcode = .loadLiteral ∨ i.opcode = .stackAllocLiteral)
    (hr : i.result = some t) (ho : i.operands = [text, type]) : Loads i t v := by
  refine ⟨hop, hr, fun leave cfg rounds payload => ?_⟩
  have hliteral : i.literal? = some (text, type) := by
    rcases hop with hop | hop <;> simp [Instr.literal?, Instr.operand?, hop, ho]
  rcases hop with hop | hop <;>
    simp [Exec.perform, hop, hliteral, Exec.required, h]

/-- Wherever it stands, the code of a literal begins with an instruction that loads `v`, and so does
what takes its place when objects are placed on the stack. -/
def RoundTrips (e : Expr) (v : Value) : Prop :=
  ∀ (token : Option Location) (setting : Setting) (s : State), s.Ready →
    ∃ r t i rest, (e.withInfo { type := e.type, token }).lower.gen.run setting s = .ok r ∧
      r.value = some t ∧ r.instrs = i :: rest ∧ Loads i t v ∧
      ∀ sol placed, ∃ j, ((i.place sol).run placed).1 = [j] ∧ Loads j t v

theorem lower_literal_emits (token : Option Location) (text type : String) {setting : Setting}
    {s : State} :
    (Expr.literal { type, token } text).lower.gen.Ensures setting s fun a _ l => ∃ t rest, a = some t ∧
      l = Instr.simple (setting.location token) .loadLiteral [text, type] (some t) :: rest := by
  simp only [Expr.lower]
  rw [Gen.ensures_bind, Gen.ensures_location, Gen.ensures_map]
  exact Layout.genLiteral_emits fun k _ => ⟨_, _, rfl, rfl⟩

theorem place_literal (location : Option Location) (text type t : String) (sol : Escape.Solution)
    (placed : Escape.Placed) :
    ∃ opcode escape, (opcode = .loadLiteral ∨ opcode = .stackAllocLiteral) ∧
      (((Instr.simple location .loadLiteral [text, type] (some t)).place sol).run placed).1 =
        [{ Instr.simple location opcode [text, type] (some t) with escape }] := by
  rw [Instr.place_eq]
  let fact : EscapeFact := { level := sol.levels.level t, lifetime := sol.scopes.get? t }
  cases hstack : fact.isStackCandidate with
  | true =>
    refine ⟨.stackAllocLiteral, some fact, .inr rfl, ?_⟩
    simp only [fact] at hstack
    simp only [Escape.step, Escape.own, Instr.simple, hstack]
    rfl
  | false =>
    refine ⟨.loadLiteral, some fact, .inl rfl, ?_⟩
    simp only [fact] at hstack
    simp only [Escape.step, Escape.own, Instr.simple, hstack]
    rfl

theorem roundTrips_literal {text type : String} {v : Value} (htype : type ≠ "")
    (h : Value.ofLiteral? text type = some v) : RoundTrips (.literal { type } text) v := by
  intro token setting s hs
  have hcode : (Expr.literal { type, token } text).WellFormed := by simpa only [Expr.WellFormed]
  obtain ⟨r, hr, -⟩ := Expr.lower_computes _ hcode setting s hs
  obtain ⟨t, rest, ht, hinstrs⟩ := lower_literal_emits token text type r hr
  refine ⟨r, t, _, rest, hr, ht, hinstrs, loads_literal h (.inl rfl) rfl rfl, fun sol placed => ?_⟩
  obtain ⟨opcode, escape, hopcode, hplace⟩ :=
    place_literal (setting.location token) text type t sol placed
  exact ⟨_, hplace, loads_literal h hopcode rfl rfl⟩

/-- Every integer of 64 bits, every truth value and every text is read back from its literal. -/
theorem literals_round_trip :
    (∀ n, RoundTrips (.ofInt n) (.integer n)) ∧ (∀ b, RoundTrips (.ofBool b) (.boolean b)) ∧
      ∀ s, RoundTrips (.ofString s) (.string s) := by
  refine ⟨fun n => roundTrips_literal (by decide) ?_, fun b => roundTrips_literal (by decide) ?_,
    fun s => roundTrips_literal (by decide) ?_⟩
  · simp [Value.ofLiteral?]
  · simp [Value.ofLiteral?, TypeName.boolean, TypeName.integer]
  · simp [Value.ofLiteral?, TypeName.string, TypeName.boolean, TypeName.integer, Value.unquote_quoted]

end ScopedIR
