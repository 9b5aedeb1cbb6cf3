import EcmaCore.Proofs.Literal

/-!
# The grammar of numerals

The grammar matches the texts of numerals and no others. For each operator one lemma says what a run
of it consumes and which parts it keeps; the rules follow from these, once from the run to the form
of what was consumed and once from the form to the run. The parts that are kept of a numeral give
its number.
-/
namespace EcmaCore

theorem exists_hexDigits {cs : List Char} (h : ∀ c ∈ cs, (hexDigit? c).isSome = true) :
    ∃ ns, List.Forall₂ HexDigit cs ns := by
  induction cs with
  | nil => exact ⟨[], .nil⟩
  | cons c cs ih =>
    obtain ⟨hc, hcs⟩ := List.forall_mem_cons.mp h
    obtain ⟨n, hn⟩ := Option.isSome_iff_exists.mp hc
    obtain ⟨ns, hns⟩ := ih hcs
    exact ⟨n :: ns, .cons (hexDigit?_eq_some_iff.mp hn) hns⟩

theorem isSome_of_hexDigits {cs : List Char} {ns : List Nat} (h : List.Forall₂ HexDigit cs ns) :
    ∀ c ∈ cs, (hexDigit? c).isSome = true := by
  induction h with
  | nil => simp
  | cons hfirst _ ih =>
    rw [List.forall_mem_cons, hexDigit?_eq_some_iff.mpr hfirst]
    exact ⟨rfl, ih⟩

namespace Pattern

section
variable {p : Char → Bool} {a b : Pattern} {c : Char} {w cs rest : List Char} {rule : Rule}
  {ps : List Part}

theorem one_run_nil : (one p).run [] = none := rfl

theorem one_run_cons : (one p).run (c :: cs) = if p c then some ([], cs) else none := rfl

theorem many_run : (many p).run cs = some ([], cs.dropWhile p) := rfl

theorem word_run :
    (word w).run cs = if w.isPrefixOf cs then some ([], cs.drop w.length) else none := rfl

theorem maybe_run : (maybe a).run cs = some ((a.run cs).getD ([], cs)) := rfl

theorem stop_run : stop.run cs = if cs.isEmpty then some ([], []) else none := rfl

theorem run_one :
    (one p).run cs = some (ps, rest) ↔ ∃ c, cs = c :: rest ∧ p c = true ∧ ps = [] := by
  cases cs with
  | nil => simp [one_run_nil]
  | cons c cs =>
    rw [one_run_cons, Option.ite_none_right_eq_some]
    constructor
    · rintro ⟨hc, heq⟩
      cases heq
      exact ⟨c, rfl, hc, rfl⟩
    · rintro ⟨c, heq, hc, rfl⟩
      obtain ⟨rfl, rfl⟩ := List.cons.inj heq
      exact ⟨hc, rfl⟩

theorem run_char : (char c).run cs = some (ps, rest) ↔ cs = c :: rest ∧ ps = [] := by
  rw [char, run_one]
  simp

theorem run_word : (word w).run cs = some (ps, rest) ↔ cs = w ++ rest ∧ ps = [] := by
  rw [word_run, Option.ite_none_right_eq_some, List.isPrefixOf_iff_prefix]
  constructor
  · rintro ⟨⟨after, rfl⟩, heq⟩
    cases heq
    simp
  · rintro ⟨rfl, rfl⟩
    simp

theorem run_many : (many p).run cs = some (ps, rest) ↔
    ∃ inside, cs = inside ++ rest ∧ (∀ c ∈ inside, p c = true) ∧ Stops p rest ∧ ps = [] := by
  rw [many_run, Option.some_inj, Prod.mk.injEq]
  constructor
  · rintro ⟨rfl, rfl⟩
    obtain ⟨inside, after, rfl, hinside, hafter⟩ := exists_span p cs
    rw [dropWhile_append hinside hafter]
    exact ⟨inside, rfl, hinside, hafter, rfl⟩
  · rintro ⟨inside, rfl, hinside, hrest, rfl⟩
    exact ⟨rfl, dropWhile_append hinside hrest⟩

/-- What follows goes on with what the first pattern leaves, and keeps its parts after those. -/
theorem run_chain : (chain a b).run cs = some (ps, rest) ↔
    ∃ first between second, a.run cs = some (first, between) ∧
      b.run between = some (second, rest) ∧ first ++ second = ps := by
  have hrun : (chain a b).run cs = (a.run cs).bind fun q =>
    (b.run q.2).map fun r => (q.1 ++ r.1, r.2) := rfl
  simp only [hrun, Option.bind_eq_some_iff, Option.map_eq_some_iff, Prod.exists, Prod.mk.injEq]
  constructor
  · rintro ⟨first, between, ha, second, _, hb, hps, rfl⟩
    exact ⟨first, between, second, ha, hb, hps⟩
  · rintro ⟨first, between, second, ha, hb, hps⟩
    exact ⟨first, between, ha, second, rest, hb, hps, rfl⟩

theorem run_either : (either a b).run cs = some (ps, rest) ↔
    a.run cs = some (ps, rest) ∨ (a.run cs = none ∧ b.run cs = some (ps, rest)) :=
  Option.or_eq_some_iff

theorem run_maybe : (maybe a).run cs = some (ps, rest) ↔
    a.run cs = some (ps, rest) ∨ (a.run cs = none ∧ ps = [] ∧ cs = rest) := by
  rw [maybe_run, Option.some_inj]
  cases a.run cs with
  | none => simp [eq_comm]
  | some => simp

/-- What may be missing is passed over where it does not match. -/
theorem run_skip (h : ∀ qs after, a.run cs ≠ some (qs, after)) :
    (maybe a).run cs = some ([], cs) :=
  run_maybe.mpr (.inr ⟨Option.eq_none_iff_forall_ne_some.mpr fun _ => h _ _, rfl, rfl⟩)

/-- The second alternative is tried where the first one does not match. -/
theorem run_second (h : ∀ qs after, a.run cs ≠ some (qs, after))
    (hb : b.run cs = some (ps, rest)) : (either a b).run cs = some (ps, rest) :=
  run_either.mpr (.inr ⟨Option.eq_none_iff_forall_ne_some.mpr fun _ => h _ _, hb⟩)

theorem run_stop : stop.run cs = some (ps, rest) ↔ cs = [] ∧ rest = [] ∧ ps = [] := by
  rw [stop_run, Option.ite_none_right_eq_some, List.isEmpty_iff, Option.some_inj, Prod.mk.injEq]
  exact and_congr_right fun _ => by rw [eq_comm, and_comm, eq_comm]

/-- A rule takes what its pattern takes. -/
theorem run_keep : (keep rule a).run cs = some (ps, rest) ↔
    ∃ inner, a.run cs = some (inner, rest) ∧
      [⟨rule, cs.take (cs.length - rest.length), inner⟩] = ps := by
  have hrun : (keep rule a).run cs = (a.run cs).map fun q =>
    ([⟨rule, cs.take (cs.length - q.2.length), q.1⟩], q.2) := rfl
  simp only [hrun, Option.map_eq_some_iff, Prod.exists, Prod.mk.injEq]
  constructor
  · rintro ⟨inner, _, ha, hps, rfl⟩
    exact ⟨inner, ha, hps⟩
  · rintro ⟨inner, ha, hps⟩
    exact ⟨inner, rest, ha, hps, rfl⟩

theorem take_taken (text rest : List Char) :
    (text ++ rest).take ((text ++ rest).length - rest.length) = text := by
  simp

theorem keep_run {text : List Char} (h : a.run (text ++ rest) = some (ps, rest)) :
    (keep rule a).run (text ++ rest) = some ([⟨rule, text, ps⟩], rest) :=
  run_keep.mpr ⟨ps, h, by rw [take_taken]⟩

theorem run_several : (several p).run cs = some (ps, rest) ↔
    ∃ inside, cs = inside ++ rest ∧ inside ≠ [] ∧ (∀ c ∈ inside, p c = true) ∧
      Stops p rest ∧ ps = [] := by
  rw [several, run_chain]
  constructor
  · rintro ⟨_, between, _, hone, hmany, rfl⟩
    obtain ⟨c, rfl, hc, rfl⟩ := run_one.mp hone
    obtain ⟨inside, rfl, hinside, hrest, rfl⟩ := run_many.mp hmany
    exact ⟨c :: inside, rfl, List.cons_ne_nil _ _, List.forall_mem_cons.mpr ⟨hc, hinside⟩, hrest,
      rfl⟩
  · rintro ⟨inside, rfl, hne, hinside, hrest, rfl⟩
    obtain ⟨c, inside, rfl⟩ := List.exists_cons_of_ne_nil hne
    obtain ⟨hc, hinside⟩ := List.forall_mem_cons.mp hinside
    exact ⟨[], inside ++ rest, [], run_one.mpr ⟨c, rfl, hc, rfl⟩,
      run_many.mpr ⟨inside, rfl, hinside, hrest, rfl⟩, rfl⟩

end

section
variable {cs rest : List Char} {ps : List Part}

theorem run_sign :
    sign.run cs = some (ps, rest) ↔ (cs = '+' :: rest ∨ cs = '-' :: rest) ∧ ps = [] := by
  rw [sign, run_either, run_char, run_char]
  constructor
  · rintro (⟨rfl, rfl⟩ | ⟨-, rfl, rfl⟩)
    · exact ⟨.inl rfl, rfl⟩
    · exact ⟨.inr rfl, rfl⟩
  · rintro ⟨rfl | rfl, rfl⟩
    · exact .inl ⟨rfl, rfl⟩
    · exact .inr ⟨rfl, rfl, rfl⟩

theorem not_run_sign (h : Unsigned cs) (qs : List Part) (after : List Char) :
    sign.run cs ≠ some (qs, after) := by
  intro hrun
  obtain ⟨rfl | rfl, -⟩ := run_sign.mp hrun
  · exact (h '+' rfl).1 rfl
  · exact (h '-' rfl).2 rfl

/-- For a sign that is kept or that is not. -/
theorem sign_of_run {a : Pattern}
    (ha : ∀ qs, a.run cs = some (qs, rest) → ∃ inner, sign.run cs = some (inner, rest))
    (h : (maybe a).run cs = some (ps, rest)) :
    ∃ text negative, cs = text ++ rest ∧ Sign text negative := by
  rcases run_maybe.mp h with h | ⟨-, -, rfl⟩
  · obtain ⟨inner, hsign⟩ := ha ps h
    obtain ⟨rfl | rfl, -⟩ := run_sign.mp hsign
    · exact ⟨['+'], false, rfl, .plus⟩
    · exact ⟨['-'], true, rfl, .minus⟩
  · exact ⟨[], false, rfl, .none⟩

theorem run_of_sign {text : List Char} {negative : Bool} (h : Sign text negative)
    (hrest : Unsigned rest) : (maybe sign).run (text ++ rest) = some ([], rest) := by
  cases h with
  | plus => rfl
  | minus => rfl
  | none => exact run_skip (not_run_sign hrest)

/-- What is kept of a sign. -/
def signParts (text : List Char) : List Part := if text.isEmpty then [] else [⟨.sign, text, []⟩]

theorem run_of_kept_sign {text : List Char} {negative : Bool} (h : Sign text negative)
    (hrest : Unsigned rest) :
    (maybe (keep .sign sign)).run (text ++ rest) = some (signParts text, rest) := by
  cases h with
  | plus => exact run_maybe.mpr (.inl (keep_run rfl))
  | minus => exact run_maybe.mpr (.inl (keep_run rfl))
  | none =>
    apply run_skip
    intro qs after hafter
    obtain ⟨inner, hsign, -⟩ := run_keep.mp hafter
    exact not_run_sign hrest inner after hsign

theorem run_mark : (either (char 'e') (char 'E')).run cs = some (ps, rest) ↔
    (∃ c, cs = c :: rest ∧ (c = 'e' ∨ c = 'E')) ∧ ps = [] := by
  rw [run_either, run_char, run_char]
  constructor
  · rintro (⟨rfl, rfl⟩ | ⟨-, rfl, rfl⟩)
    · exact ⟨⟨'e', rfl, .inl rfl⟩, rfl⟩
    · exact ⟨⟨'E', rfl, .inr rfl⟩, rfl⟩
  · rintro ⟨⟨c, rfl, rfl | rfl⟩, rfl⟩
    · exact .inl ⟨rfl, rfl⟩
    · exact .inr ⟨rfl, rfl, rfl⟩

theorem exponent_of_run (h : (maybe exponent).run cs = some (ps, rest)) :
    ∃ text e, cs = text ++ rest ∧ Exponent text e := by
  rcases run_maybe.mp h with h | ⟨-, -, rfl⟩
  · obtain ⟨_, afterMark, _, hmark, h, -⟩ := run_chain.mp h
    obtain ⟨_, afterSign, _, hsign, hdigits, -⟩ := run_chain.mp h
    obtain ⟨⟨c, rfl, hc⟩, -⟩ := run_mark.mp hmark
    obtain ⟨text, negative, rfl, hsigned⟩ := sign_of_run (fun _ h => ⟨_, h⟩) hsign
    obtain ⟨ds, rfl, hne, hds, -⟩ := run_several.mp hdigits
    exact ⟨c :: (text ++ ds), _, by simp, .some hc hsigned hne hds⟩
  · exact ⟨[], 0, rfl, .none⟩

/-- What ends a numeral: nothing that could belong to a decimal. -/
def Ends (cs : List Char) : Prop := Stops isNumeric cs

theorem Ends.not_digit (h : Ends rest) : Stops Char.isDigit rest := by
  intro c hc
  have hnumeric := h c hc
  rw [isNumeric, Bool.or_eq_false_iff] at hnumeric
  exact hnumeric.1

theorem Ends.ne {d : Char} (h : Ends rest) (hd : isNumeric d = true) : ∀ c ∈ rest.head?, c ≠ d := by
  rintro c hc rfl
  exact absurd hd (by rw [h c hc]; decide)

theorem run_of_exponent {text : List Char} {e : Int} (h : Exponent text e) (hrest : Ends rest) :
    (maybe exponent).run (text ++ rest) = some ([], rest) := by
  cases h with
  | none =>
    apply run_skip
    intro qs after hafter
    obtain ⟨_, _, _, hmark, -⟩ := run_chain.mp hafter
    obtain ⟨⟨c, rfl, hc⟩, -⟩ := run_mark.mp hmark
    rcases hc with rfl | rfl <;> exact hrest.ne rfl _ rfl rfl
  | @some c sign ds _ hc hsign hne hds =>
    have hdigits : (several Char.isDigit).run (ds ++ rest) = some ([], rest) :=
      run_several.mpr ⟨ds, rfl, hne, hds, hrest.not_digit, rfl⟩
    have hunsigned : Unsigned (ds ++ rest) := by
      obtain ⟨d, ds, rfl⟩ := List.exists_cons_of_ne_nil hne
      exact hds.unsigned
    have hmark : (either (char 'e') (char 'E')).run (c :: (sign ++ ds) ++ rest) =
        some ([], sign ++ (ds ++ rest)) :=
      run_mark.mpr ⟨⟨c, by simp, hc⟩, rfl⟩
    exact run_maybe.mpr (.inl (run_chain.mpr ⟨[], _, [], hmark,
      run_chain.mpr ⟨[], _, [], run_of_sign hsign hunsigned, hdigits, rfl⟩, rfl⟩))

theorem mantissa_of_run (h : mantissa.run cs = some (ps, rest)) :
    ∃ text whole fraction, cs = text ++ rest ∧ Mantissa text whole fraction := by
  rw [mantissa, run_either] at h
  rcases h with h | ⟨-, h⟩
  · obtain ⟨_, after, _, hwhole, hpoint, -⟩ := run_chain.mp h
    obtain ⟨ds, rfl, hne, hds, -⟩ := run_several.mp hwhole
    rcases run_maybe.mp hpoint with hpoint | ⟨-, -, rfl⟩
    · obtain ⟨_, afterPoint, _, hchar, hfraction, -⟩ := run_chain.mp hpoint
      obtain ⟨rfl, -⟩ := run_char.mp hchar
      obtain ⟨fs, rfl, hfs, -⟩ := run_many.mp hfraction
      exact ⟨ds ++ '.' :: fs, ds, fs, by simp, .point hne hds hfs⟩
    · exact ⟨ds, ds, [], rfl, .whole hne hds⟩
  · obtain ⟨_, afterPoint, _, hchar, hfraction, -⟩ := run_chain.mp h
    obtain ⟨rfl, -⟩ := run_char.mp hchar
    obtain ⟨fs, rfl, hne, hfs, -⟩ := run_several.mp hfraction
    exact ⟨'.' :: fs, [], fs, rfl, .fraction hne hfs⟩

theorem run_of_mantissa {text whole fraction : List Char} (h : Mantissa text whole fraction)
    (hrest : Bounds rest) : mantissa.run (text ++ rest) = some ([], rest) := by
  have hdigit : Stops Char.isDigit rest := fun c hc => (hrest c hc).1
  cases h with
  | whole hne hds =>
    have hpoint : (maybe (chain (char '.') (many Char.isDigit))).run rest = some ([], rest) := by
      apply run_skip
      intro qs after hafter
      obtain ⟨_, _, _, hchar, -⟩ := run_chain.mp hafter
      obtain ⟨rfl, -⟩ := run_char.mp hchar
      exact (hrest '.' rfl).2 rfl
    have hwhole := run_several.mpr ⟨_, rfl, hne, hds, hdigit, rfl⟩
    exact run_either.mpr (.inl (run_chain.mpr ⟨[], rest, [], hwhole, hpoint, rfl⟩))
  | point hne hds hfs =>
    have hpoint : Stops Char.isDigit ('.' :: (fraction ++ rest)) := stops_cons rfl _
    have hwhole := run_several.mpr ⟨_, rfl, hne, hds, hpoint, rfl⟩
    have hfraction := run_many.mpr ⟨_, rfl, hfs, hdigit, rfl⟩
    rw [List.append_assoc, List.cons_append]
    exact run_either.mpr (.inl (run_chain.mpr ⟨[], _, [], hwhole,
      run_maybe.mpr (.inl (run_chain.mpr ⟨[], _, [], run_char.mpr ⟨rfl, rfl⟩, hfraction, rfl⟩)),
      rfl⟩))
  | fraction hne hfs =>
    have hfraction := run_several.mpr ⟨_, rfl, hne, hfs, hdigit, rfl⟩
    exact run_either.mpr (.inr ⟨rfl,
      run_chain.mpr ⟨[], _, [], run_char.mpr ⟨rfl, rfl⟩, hfraction, rfl⟩⟩)

theorem spells_of_run_decimal (h : decimal.run cs = some (ps, rest)) :
    ∃ text n, cs = text ++ rest ∧ Spells text n := by
  obtain ⟨_, h, -⟩ := run_keep.mp h
  obtain ⟨_, body, _, hsign, hbody, -⟩ := run_chain.mp h
  have hkept : ∀ qs, (keep .sign sign).run cs = some (qs, body) →
      ∃ inner, sign.run cs = some (inner, body) :=
    fun _ hk => (run_keep.mp hk).imp fun _ => And.left
  obtain ⟨text, negative, rfl, hsigned⟩ := sign_of_run hkept hsign
  rcases run_either.mp hbody with hname | ⟨-, hnumber⟩
  · obtain ⟨_, hword, -⟩ := run_keep.mp hname
    obtain ⟨rfl, -⟩ := run_word.mp hword
    exact ⟨text ++ "Infinity".toList, _, by simp, .infinity hsigned⟩
  · obtain ⟨_, hdecimal, -⟩ := run_keep.mp hnumber
    obtain ⟨_, afterMantissa, _, hmantissa, hexponent, -⟩ := run_chain.mp hdecimal
    obtain ⟨digits, whole, fraction, rfl, hm⟩ := mantissa_of_run hmantissa
    obtain ⟨tail, e, rfl, he⟩ := exponent_of_run hexponent
    exact ⟨text ++ (digits ++ tail), _, by simp, .decimal hsigned hm he⟩

theorem run_mark_hexadecimal :
    (either (word "0x".toList) (word "0X".toList)).run cs = some (ps, rest) ↔
      (∃ x, cs = '0' :: x :: rest ∧ (x = 'x' ∨ x = 'X')) ∧ ps = [] := by
  rw [run_either, run_word, run_word]
  constructor
  · rintro (⟨rfl, rfl⟩ | ⟨-, rfl, rfl⟩)
    · exact ⟨⟨'x', rfl, .inl rfl⟩, rfl⟩
    · exact ⟨⟨'X', rfl, .inr rfl⟩, rfl⟩
  · rintro ⟨⟨x, rfl, rfl | rfl⟩, rfl⟩
    · exact .inl ⟨rfl, rfl⟩
    · exact .inr ⟨rfl, rfl, rfl⟩

theorem run_hexadecimal : hexadecimal.run cs = some (ps, rest) ↔
    ∃ x ds ns, cs = '0' :: x :: (ds ++ rest) ∧ (x = 'x' ∨ x = 'X') ∧ ds ≠ [] ∧
      List.Forall₂ HexDigit ds ns ∧ Stops (fun c => (hexDigit? c).isSome) rest ∧
      ps = [⟨.hexadecimal, '0' :: x :: ds, []⟩] := by
  constructor
  · intro h
    obtain ⟨_, hinner, rfl⟩ := run_keep.mp h
    obtain ⟨_, after, _, hmark, hdigits, rfl⟩ := run_chain.mp hinner
    obtain ⟨⟨x, rfl, hx⟩, rfl⟩ := run_mark_hexadecimal.mp hmark
    obtain ⟨ds, rfl, hne, hds, hrest, rfl⟩ := run_several.mp hdigits
    obtain ⟨ns, hns⟩ := exists_hexDigits hds
    have htext := take_taken ('0' :: x :: ds) rest
    rw [List.cons_append, List.cons_append] at htext
    exact ⟨x, ds, ns, rfl, hx, hne, hns, hrest, by rw [htext]; rfl⟩
  · rintro ⟨x, ds, ns, rfl, hx, hne, hns, hrest, rfl⟩
    have hmark : (either (word "0x".toList) (word "0X".toList)).run ('0' :: x :: (ds ++ rest)) =
        some ([], ds ++ rest) := run_mark_hexadecimal.mpr ⟨⟨x, rfl, hx⟩, rfl⟩
    have hdigits := run_several.mpr ⟨ds, rfl, hne, isSome_of_hexDigits hns, hrest, rfl⟩
    rw [← List.cons_append, ← List.cons_append]
    exact keep_run (run_chain.mpr ⟨[], ds ++ rest, [], hmark, hdigits, rfl⟩)

theorem spells_of_run (h : (either hexadecimal decimal).run cs = some (ps, rest)) :
    ∃ text n, cs = text ++ rest ∧ Spells text n := by
  rcases run_either.mp h with h | ⟨-, h⟩
  · obtain ⟨x, ds, ns, rfl, hx, hne, hns, -⟩ := run_hexadecimal.mp h
    exact ⟨'0' :: x :: ds, _, rfl, .hexadecimal hx hne hns⟩
  · exact spells_of_run_decimal h

theorem ends_of_blanks (h : ∀ c ∈ rest, isBlank c = true) : Ends rest := by
  intro c hc
  have hblank := h c (List.mem_of_mem_head? hc)
  rw [Bool.eq_false_iff]
  intro hnumeric
  rw [not_blank_of_isGraphic (isGraphic_of_isNumeric hnumeric)] at hblank
  cases hblank

theorem Ends.bounds (h : Ends rest) : Bounds rest :=
  fun c hc => ⟨h.not_digit c hc, h.ne rfl c hc⟩

theorem run_of_infinity {text : List Char} {negative : Bool} (h : Sign text negative) :
    decimal.run (text ++ "Infinity".toList ++ rest) =
      some ([⟨.decimal, text ++ "Infinity".toList,
        signParts text ++ [⟨.infinity, "Infinity".toList, []⟩]⟩], rest) := by
  have hname : (keep .infinity (word "Infinity".toList)).run ("Infinity".toList ++ rest) =
      some ([⟨.infinity, "Infinity".toList, []⟩], rest) := keep_run (run_word.mpr ⟨rfl, rfl⟩)
  have hsign : (maybe (keep .sign sign)).run (text ++ ("Infinity".toList ++ rest)) =
      some (signParts text, "Infinity".toList ++ rest) := run_of_kept_sign h (by simp [Unsigned])
  apply keep_run
  rw [List.append_assoc]
  exact run_chain.mpr ⟨_, _, _, hsign, run_either.mpr (.inl hname), rfl⟩

theorem run_of_decimal {text digits whole fraction tail : List Char} {negative : Bool} {e : Int}
    (hsign : Sign text negative) (hmantissa : Mantissa digits whole fraction)
    (hexponent : Exponent tail e) (hrest : Ends rest) :
    decimal.run (text ++ (digits ++ tail) ++ rest) =
      some ([⟨.decimal, text ++ (digits ++ tail),
        signParts text ++ [⟨.number, digits ++ tail, []⟩]⟩], rest) := by
  have hbounds : Bounds (tail ++ rest) := by
    cases tail with
    | nil => exact hrest.bounds
    | cons => exact hexponent.bounds
  have hrun := run_of_mantissa hmantissa hbounds
  have hnumber : (keep .number (chain mantissa (maybe exponent))).run (digits ++ tail ++ rest) =
      some ([⟨.number, digits ++ tail, []⟩], rest) := by
    apply keep_run
    rw [List.append_assoc]
    exact run_chain.mpr ⟨[], _, [], hrun, run_of_exponent hexponent hrest, rfl⟩
  obtain ⟨c, after, rfl, hc⟩ := hmantissa.head
  have hunsigned : Unsigned (c :: after ++ tail ++ rest) := by
    intro d hd
    obtain rfl := Option.some.inj hd
    constructor <;> rintro rfl <;> revert hc <;> decide
  have hunnamed : ∀ qs last,
      (keep .infinity (word "Infinity".toList)).run (c :: after ++ tail ++ rest) ≠
        some (qs, last) := by
    intro qs last hname
    obtain ⟨_, hword, -⟩ := run_keep.mp hname
    obtain rfl : c = 'I' := (List.cons.inj (run_word.mp hword).1).1
    revert hc
    decide
  apply keep_run
  rw [List.append_assoc]
  exact run_chain.mpr ⟨_, _, _, run_of_kept_sign hsign hunsigned, run_second hunnamed hnumber, rfl⟩

theorem ofParts?_hexadecimal (text : List Char) (inner : List Part) :
    Binary64.ofParts? [⟨.hexadecimal, text, inner⟩] = some (.ofHexDigits (text.drop 2)) := rfl

theorem ofParts?_decimal (text : List Char) (inner : List Part) :
    Binary64.ofParts? [⟨.decimal, text, inner⟩] = some (.ofDecimalParts inner) := rfl

/-- By induction on the digits. -/
theorem foldl_hexDigits {ds : List Char} {ns : List Nat} (h : List.Forall₂ HexDigit ds ns)
    (x : Binary64) : ds.foldl (fun x c => x.pushHexDigit ((hexDigit? c).getD 0)) x =
      ns.foldl Binary64.pushHexDigit x := by
  induction h generalizing x with
  | nil => rfl
  | cons hdigit _ ih =>
    rw [List.foldl_cons, List.foldl_cons, hexDigit?_eq_some_iff.mpr hdigit, ih]
    rfl

theorem ofDecimalParts_infinity {text : List Char} {negative : Bool} (h : Sign text negative)
    (w : List Char) :
    Binary64.ofDecimalParts (signParts text ++ [⟨.infinity, w, []⟩]) = .infinity negative := by
  cases h <;> rfl

/-- The sign is put on the number that was read without one. -/
theorem ofDecimalParts_number {text body : List Char} {negative : Bool} (h : Sign text negative)
    {d : Decimal} (hread : Binary64.parse? body = some (d.toBinary64 false)) :
    Binary64.ofDecimalParts (signParts text ++ [⟨.number, body, []⟩]) = d.toBinary64 negative := by
  have hnegate : (d.toBinary64 false).negate = d.toBinary64 true := by
    unfold Decimal.toBinary64
    cases d.magnitude? <;> rfl
  cases h <;> simp [Binary64.ofDecimalParts, signParts, Binary64.readPart, hread, hnegate]

/-- A numeral with blanks after it is matched up to the blanks, and its number is that of the parts
that are kept. -/
theorem run_of_spells {text : List Char} {n : Numeral} (h : Spells text n) (hne : text ≠ [])
    (hrest : ∀ c ∈ rest, isBlank c = true) :
    ∃ part, (either hexadecimal decimal).run (text ++ rest) = some ([part], rest) ∧
      Binary64.ofParts? [part] = some n.value := by
  cases h with
  | blank => exact absurd rfl hne
  | @hexadecimal x ds ns mark hds hdigits =>
    have hstops : Stops (fun c => (hexDigit? c).isSome) rest := by
      intro c hc
      have hblank := hrest c (List.mem_of_mem_head? hc)
      rw [Bool.eq_false_iff]
      intro hdigit
      obtain ⟨n, hn⟩ := Option.isSome_iff_exists.mp hdigit
      rw [not_blank_of_isGraphic (hexDigit?_eq_some_iff.mp hn).graphic] at hblank
      cases hblank
    refine ⟨_, run_either.mpr (.inl (run_hexadecimal.mpr
      ⟨x, ds, ns, rfl, mark, hds, hdigits, hstops, rfl⟩)), ?_⟩
    rw [ofParts?_hexadecimal]
    exact congrArg some (foldl_hexDigits hdigits .zero)
  | infinity hsign =>
    refine ⟨_, run_second ?_ (run_of_infinity hsign), ?_⟩
    case refine_2 =>
      rw [ofParts?_decimal, ofDecimalParts_infinity hsign, Numeral.value]
    intro qs after hafter
    obtain ⟨x, ds, ns, heq, -⟩ := run_hexadecimal.mp hafter
    cases hsign <;> cases heq
  | decimal hsign hmantissa hexponent =>
    refine ⟨_, run_second ?_ (run_of_decimal hsign hmantissa hexponent (ends_of_blanks hrest)), ?_⟩
    case refine_2 =>
      rw [ofParts?_decimal, ofDecimalParts_number hsign (parse?_decimal hmantissa hexponent),
        Numeral.value]
    intro qs after hhex
    obtain ⟨x, ds, ns, heq, hx, -⟩ := run_hexadecimal.mp hhex
    have hmem : x ∈ _ := heq ▸ List.mem_cons_of_mem _ List.mem_cons_self
    rcases List.mem_append.mp hmem with hbody | hafter
    · have hnumeric := isNumeric_of_decimal hsign hmantissa hexponent x hbody
      rcases hx with rfl | rfl <;> exact absurd hnumeric (by decide)
    · have hblank := hrest x hafter
      rcases hx with rfl | rfl <;> exact absurd hblank (by decide)

end

/-- Characters that are a numeral with blanks around it. -/
def Holds (cs : List Char) (n : Numeral) : Prop :=
  ∃ before body after, cs = before ++ (body ++ after) ∧ (∀ c ∈ before, isBlank c = true) ∧
    (∀ c ∈ after, isBlank c = true) ∧ Spells body n

theorem holds_of_run {cs rest : List Char} {ps : List Part}
    (h : numeral.run cs = some (ps, rest)) : ∃ n, Holds cs n := by
  obtain ⟨_, afterBefore, _, hskip, hrest, -⟩ := run_chain.mp h
  obtain ⟨_, afterBody, _, hbody, hend, -⟩ := run_chain.mp hrest
  obtain ⟨_, hstop, -⟩ := run_keep.mp hend
  obtain ⟨rfl, -⟩ := run_stop.mp hstop
  obtain ⟨before, rfl, hbefore, -⟩ := run_many.mp hskip
  rcases run_maybe.mp hbody with hbody | ⟨-, -, rfl⟩
  · obtain ⟨_, after, _, hliteral, hafter, -⟩ := run_chain.mp hbody
    obtain ⟨body, n, rfl, hspells⟩ := spells_of_run hliteral
    obtain ⟨after, rfl, hblanks, -⟩ := run_many.mp hafter
    exact ⟨n, before, body, after, by simp, hbefore, hblanks, hspells⟩
  · exact ⟨_, before, [], [], rfl, hbefore, by simp, .blank⟩

/-- The grammar matches the numerals with blanks around them, and the parts that it keeps give the
number. -/
theorem run_of_holds {cs : List Char} {n : Numeral} (h : Holds cs n) :
    ∃ ps, numeral.run cs = some (ps, []) ∧ Binary64.ofParts? ps = some n.value := by
  obtain ⟨before, body, after, rfl, hbefore, hafter, hspells⟩ := h
  have hstop : (keep .stop stop).run [] = some ([⟨.stop, [], []⟩], []) := rfl
  cases body with
  | nil =>
    obtain rfl := hspells.eq_blank rfl
    have hblanks : ∀ c ∈ before ++ after, isBlank c = true := by
      intro c hc
      exact (List.mem_append.mp hc).elim (hbefore c) (hafter c)
    have hskip : (many isBlank).run (before ++ after) = some ([], []) :=
      run_many.mpr ⟨_, by simp, hblanks, stops_nil, rfl⟩
    exact ⟨_, run_chain.mpr ⟨[], [], _, hskip, rfl, rfl⟩, rfl⟩
  | cons c body =>
    obtain ⟨part, hliteral, hvalue⟩ := run_of_spells hspells (List.cons_ne_nil c body) hafter
    have hgraphic := hspells.graphic c List.mem_cons_self
    have hskip : (many isBlank).run (before ++ (c :: body ++ after)) =
        some ([], c :: body ++ after) :=
      run_many.mpr ⟨before, rfl, hbefore, stops_cons (not_blank_of_isGraphic hgraphic) _, rfl⟩
    have hblanks : (many isBlank).run after = some ([], []) :=
      run_many.mpr ⟨after, by simp, hafter, stops_nil, rfl⟩
    have hbody := run_maybe.mpr (.inl (run_chain.mpr ⟨_, _, _, hliteral, hblanks, rfl⟩))
    refine ⟨_, run_chain.mpr ⟨_, _, _, hskip, run_chain.mpr ⟨_, _, _, hbody, hstop, rfl⟩, rfl⟩, ?_⟩
    -- The end of the text leaves the number as it is.
    simpa [Binary64.ofParts?] using hvalue

end Pattern

open Pattern

/-- Neither a blank nor a character of a numeral is the replacement character, so no text with a
surrogate that stands alone is matched. -/
theorem holds_toChars_iff {t : Text} {n : Numeral} : Holds t.toChars n ↔ t.StandsFor n := by
  constructor
  · rintro ⟨before, body, after, heq, hbefore, hafter, h⟩
    refine ⟨before, body, after, ?_, fun c hc => (isBlank_iff c).mp (hbefore c hc),
      fun c hc => (isBlank_iff c).mp (hafter c hc), h⟩
    rw [← heq]
    refine (Text.ofString_toString ?_).symm
    rintro c hc rfl
    rw [heq, List.mem_append, List.mem_append] at hc
    rcases hc with hc | hc | hc
    · exact absurd (hbefore _ hc) (by decide)
    · exact absurd (h.graphic _ hc) (by decide)
    · exact absurd (hafter _ hc) (by decide)
  · rintro ⟨before, body, after, rfl, hbefore, hafter, h⟩
    refine ⟨before, body, after, ?_, fun c hc => (isBlank_iff c).mpr (hbefore c hc),
      fun c hc => (isBlank_iff c).mpr (hafter c hc), h⟩
    rw [Text.toChars_ofString, String.toList_ofList]

theorem toNumber_eq_value {t : Text} {n : Numeral} (h : t.StandsFor n) : t.toNumber = n.value := by
  obtain ⟨ps, hrun, hvalue⟩ := run_of_holds (holds_toChars_iff.mpr h)
  simp only [Text.toNumber, Binary64.ofNumeral?, hrun, Option.bind_some, hvalue, Option.getD_some]

theorem run_toChars_iff {t : Text} :
    (∃ ps, numeral.run t.toChars = some (ps, [])) ↔ ∃ n, t.StandsFor n := by
  constructor
  · rintro ⟨ps, hrun⟩
    obtain ⟨n, h⟩ := holds_of_run hrun
    exact ⟨n, holds_toChars_iff.mp h⟩
  · rintro ⟨n, h⟩
    obtain ⟨ps, hrun, -⟩ := run_of_holds (holds_toChars_iff.mpr h)
    exact ⟨ps, hrun⟩

theorem toNumber_ne_nan_iff {t : Text} : t.toNumber ≠ .nan ↔ ∃ n, t.StandsFor n := by
  constructor
  · intro h
    cases hrun : numeral.run t.toChars with
    | none =>
      simp only [Text.toNumber, Binary64.ofNumeral?, hrun, Option.bind_none, Option.getD_none] at h
      exact absurd rfl h
    | some result =>
      obtain ⟨n, hn⟩ := holds_of_run hrun
      exact ⟨n, holds_toChars_iff.mp hn⟩
  · rintro ⟨n, h⟩
    rw [toNumber_eq_value h]
    exact n.value_ne_nan

/-- A text gives a number exactly if it stands for a numeral, which is also when the grammar matches
it. The number is the one that the numeral denotes. -/
theorem text_reads_as_numeral (t : Text) :
    (t.toNumber ≠ .nan ↔ ∃ n, t.StandsFor n) ∧
    ((∃ parts, numeral.run t.toChars = some (parts, [])) ↔ ∃ n, t.StandsFor n) ∧
    ∀ n, t.StandsFor n → n.Denotes t.toNumber := by
  refine ⟨toNumber_ne_nan_iff, run_toChars_iff, ?_⟩
  intro n h
  rw [toNumber_eq_value h]
  exact n.denotes_value

/-- A negative number under half the least magnitude, with blanks around it. -/
theorem text_reads_as_numeral_tiny :
    (Text.ofString " -0.1e-399\n").StandsFor (.decimal true ⟨1, -400⟩) ∧
    Binary64.Rounds true (Decimal.value ⟨1, -400⟩) (Text.ofString " -0.1e-399\n").toNumber := by
  have hmantissa : Mantissa ['0', '.', '1'] ['0'] ['1'] :=
    .point (List.cons_ne_nil '0' []) (List.all_eq_true.mp rfl) (List.all_eq_true.mp rfl)
  have hexponent : Exponent ['e', '-', '3', '9', '9'] (-399) :=
    .some (.inl rfl) .minus (List.cons_ne_nil '3' ['9', '9']) (List.all_eq_true.mp rfl)
  have h : (Text.ofString " -0.1e-399\n").StandsFor (.decimal true ⟨1, -400⟩) :=
    ⟨[' '], _, ['\n'], by decide +kernel, by simp [blanks], by simp [blanks],
      .decimal .minus hmantissa hexponent⟩
  exact ⟨h, (text_reads_as_numeral _).2.2 _ h⟩

end EcmaCore
