import AsioAggregator.Numeral

/-!
# Decimals as the exchanges print them

An exchange prints its prices and quantities in ticks, with a fixed number of places after the
point. What is printed for a number of ticks reads as that number again.
-/

namespace AsioAggregator

def lowDigits : ℕ → ℕ → List ℕ
  | 0, _ => []
  | count + 1, n => n % 10 :: lowDigits count (n / 10)

def wholeDigits (n : ℕ) : List ℕ := if n = 0 then [0] else Nat.digits 10 n

def digitText (ds : List ℕ) : List Char := (ds.map Nat.digitChar).reverse

/-- The text of `n` ticks. Without places there is no point. -/
def printTicks (places n : ℕ) : String :=
  String.ofList (digitText (wholeDigits (n / 10 ^ places)) ++
    if places = 0 then [] else '.' :: digitText (lowDigits places n))

section Digits
variable {ds : List ℕ} {places n : ℕ}

theorem lowDigits_lt : ∀ d ∈ lowDigits places n, d < 10 := by
  induction places generalizing n with
  | zero => simp [lowDigits]
  | succ count ih =>
    intro d hd
    rcases List.mem_cons.mp hd with rfl | hd
    · exact Nat.mod_lt _ (by omega)
    · exact ih d hd

theorem length_lowDigits : (lowDigits places n).length = places := by
  induction places generalizing n with
  | zero => rfl
  | succ count ih => rw [lowDigits, List.length_cons, ih]

theorem ofDigits_lowDigits : Nat.ofDigits 10 (lowDigits places n) = n % 10 ^ places := by
  induction places generalizing n with
  | zero => simp [lowDigits, Nat.mod_one]
  | succ count ih => rw [lowDigits, Nat.ofDigits_cons, ih, Nat.pow_succ', Nat.mod_mul]

theorem wholeDigits_lt : ∀ d ∈ wholeDigits n, d < 10 := by
  unfold wholeDigits
  split_ifs with hn
  · simp
  · exact fun d hd => Nat.digits_lt_base (by omega) hd

theorem ofDigits_wholeDigits : Nat.ofDigits 10 (wholeDigits n) = n := by
  unfold wholeDigits
  split_ifs with hn
  · simp [hn]
  · exact Nat.ofDigits_digits 10 n

theorem wholeDigits_ne_nil : wholeDigits n ≠ [] := by
  unfold wholeDigits
  split_ifs with hn
  · simp
  · exact Nat.digits_ne_nil_iff_ne_zero.mpr hn

theorem mem_digitText (h : ∀ d ∈ ds, d < 10) {c : Char} (hc : c ∈ digitText ds) :
    isDigitOf 10 c = true ∧ c.isDigit = true := by
  have hdigits : ∀ d < 10, isDigitOf 10 d.digitChar = true ∧ d.digitChar.isDigit = true := by decide
  obtain ⟨d, hd, rfl⟩ := List.mem_map.mp (List.mem_reverse.mp hc)
  exact hdigits d (h d hd)

theorem natOfDigits_digitText (h : ∀ d ∈ ds, d < 10) :
    natOfDigits 10 (digitText ds) = Nat.ofDigits 10 ds := by
  have hvalue : ∀ d < 10, digitValue d.digitChar = d := by decide
  have hsame : (ds.map Nat.digitChar).map digitValue = ds := by
    rw [List.map_map]
    conv_rhs => rw [← List.map_id ds]
    exact List.map_congr_left fun d hd => hvalue d (h d hd)
  rw [natOfDigits, digitText, List.map_reverse, List.reverse_reverse, hsame]

theorem digitText_append (ds ds' : List ℕ) :
    digitText (ds ++ ds') = digitText ds' ++ digitText ds := by
  simp [digitText]

end Digits

section Scan
variable {ds fs : List ℕ}

theorem scanPositional_whole (h : ∀ d ∈ ds, d < 10) (hne : ds ≠ []) :
    scanPositional 10 10 'e' (digitText ds) = some ((Nat.ofDigits 10 ds : ℕ) : ℚ) := by
  have hall : ∀ c ∈ digitText ds, isDigitOf 10 c = true := fun c hc => (mem_digitText h hc).1
  have hne' : digitText ds ≠ [] := by simpa [digitText] using hne
  simp only [scanPositional, List.takeWhile_eq_self_iff.mpr hall,
    List.dropWhile_eq_nil_iff.mpr hall, List.append_nil, if_neg hne', natOfDigits_digitText h]
  simp [scanExponent]

theorem scanPositional_point (h : ∀ d ∈ ds, d < 10) (hf : ∀ d ∈ fs, d < 10) (hne : ds ≠ []) :
    scanPositional 10 10 'e' (digitText ds ++ '.' :: digitText fs) =
      some (((Nat.ofDigits 10 (fs ++ ds) : ℕ) : ℚ) / 10 ^ fs.length) := by
  have hall : ∀ c ∈ digitText ds, isDigitOf 10 c = true := fun c hc => (mem_digitText h hc).1
  have hall' : ∀ c ∈ digitText fs, isDigitOf 10 c = true := fun c hc => (mem_digitText hf hc).1
  have hboth : ∀ d ∈ fs ++ ds, d < 10 := by
    intro d hd
    exact (List.mem_append.mp hd).elim (hf d) (h d)
  have hwhole : (digitText ds ++ '.' :: digitText fs).takeWhile (isDigitOf 10) = digitText ds := by
    rw [List.takeWhile_append_of_pos hall, List.takeWhile_cons_of_neg (by decide), List.append_nil]
  have hrest : (digitText ds ++ '.' :: digitText fs).dropWhile (isDigitOf 10) =
      '.' :: digitText fs := by
    rw [List.dropWhile_append_of_pos hall, List.dropWhile_cons_of_neg (by decide)]
  have hne' : digitText (fs ++ ds) ≠ [] := by simp [digitText, hne]
  have hlength : (digitText fs).length = fs.length := by simp [digitText]
  simp only [scanPositional, hwhole, hrest, List.takeWhile_eq_self_iff.mpr hall',
    List.dropWhile_eq_nil_iff.mpr hall', ← digitText_append, if_neg hne', hlength,
    natOfDigits_digitText hboth]
  simp [scanExponent]

theorem strtod_of_digit {d : ℕ} {rest : List Char} {q : ℚ} (hd : d < 10)
    (hrest : ∀ c ∈ rest.head?, c.toLower ≠ 'x')
    (hscan : scanPositional 10 10 'e' (d.digitChar :: rest) = some q) :
    strtod (String.ofList (d.digitChar :: rest)) = some (.finite q) := by
  have hdigits : ∀ d < 10, isSpace d.digitChar = false ∧ d.digitChar ≠ '-' ∧ d.digitChar ≠ '+' ∧
      d.digitChar.toLower ≠ 'i' ∧ d.digitChar.toLower ≠ 'n' := by decide
  obtain ⟨hspace, hminus, hplus, hinf, hnan⟩ := hdigits d hd
  have hsign : scanSign (d.digitChar :: rest) = (false, d.digitChar :: rest) := by
    unfold scanSign
    split
    · rename_i heq
      exact absurd (List.cons.inj heq).1 hminus
    · rename_i heq
      exact absurd (List.cons.inj heq).1 hplus
    · rfl
  have hhex : startsWithNoCase ['0', 'x'] (d.digitChar :: rest) = false := by
    cases rest with
    | nil => simp [startsWithNoCase]
    | cons c cs => simp [startsWithNoCase, hrest c rfl]
  have hwords : startsWithNoCase ['i', 'n', 'f'] (d.digitChar :: rest) = false ∧
      startsWithNoCase ['n', 'a', 'n'] (d.digitChar :: rest) = false := by
    simp [startsWithNoCase, hinf, hnan]
  simp [strtod, hspace, hsign, scanMagnitude, hwords, hhex, hscan]

end Scan

section Ticks

theorem strtod_printTicks (places n : ℕ) :
    strtod (printTicks places n) = some (.finite (n / 10 ^ places)) := by
  have hwhole := wholeDigits_lt (n := n / 10 ^ places)
  have hlow : ∀ d ∈ lowDigits places n, d < 10 := lowDigits_lt
  obtain ⟨init, d, hd⟩ := List.eq_nil_or_concat (wholeDigits (n / 10 ^ places)) |>.resolve_left
    wholeDigits_ne_nil
  rw [List.concat_eq_append] at hd
  have hd10 : d < 10 := hwhole d (by rw [hd]; simp)
  have hletter : ∀ c ∈ digitText init, c.toLower ≠ 'x' := by
    intro c hc
    have hdigits : ∀ d < 10, d.digitChar.toLower ≠ 'x' := by decide
    obtain ⟨d', hd', rfl⟩ := List.mem_map.mp (List.mem_reverse.mp hc)
    exact hdigits d' (hwhole d' (by rw [hd]; simp [hd']))
  have htext : digitText (wholeDigits (n / 10 ^ places)) = d.digitChar :: digitText init := by
    rw [hd, digitText_append]
    rfl
  by_cases hplaces : places = 0
  · subst hplaces
    have hscan := scanPositional_whole hwhole wholeDigits_ne_nil
    rw [htext, ofDigits_wholeDigits] at hscan
    rw [printTicks, htext, if_pos rfl, List.append_nil,
      strtod_of_digit hd10 (fun c hc => hletter c (List.mem_of_mem_head? hc)) hscan]
    simp
  · have hscan := scanPositional_point hwhole hlow wholeDigits_ne_nil
    have hvalue : Nat.ofDigits 10 (lowDigits places n ++ wholeDigits (n / 10 ^ places)) = n := by
      rw [Nat.ofDigits_append, ofDigits_lowDigits, ofDigits_wholeDigits, length_lowDigits]
      exact Nat.mod_add_div n (10 ^ places)
    rw [htext, hvalue, length_lowDigits] at hscan
    rw [printTicks, htext, if_neg hplaces]
    refine strtod_of_digit hd10 (fun c hc => ?_) hscan
    cases hinit : digitText init with
    | nil =>
      obtain rfl : '.' = c := by simpa [hinit] using hc
      decide
    | cons x xs =>
      obtain rfl : x = c := by simpa [hinit] using hc
      exact hletter x (by simp [hinit])

def ticksOf (places : ℕ) (q : ℚ) : ℕ := (q * 10 ^ places).num.toNat

def printDecimal (places : ℕ) (q : ℚ) : String := printTicks places (ticksOf places q)

/-- A non-negative number of whole ticks. -/
def OnGrid (places : ℕ) (q : ℚ) : Prop := 0 ≤ q ∧ (q * 10 ^ places).den = 1

instance (places : ℕ) (q : ℚ) : Decidable (OnGrid places q) :=
  inferInstanceAs (Decidable (_ ∧ _))

theorem onGrid_zero (places : ℕ) : OnGrid places 0 := by simp [OnGrid]

theorem ticksOf_div {places : ℕ} {q : ℚ} (h : OnGrid places q) :
    (ticksOf places q : ℚ) / 10 ^ places = q := by
  obtain ⟨hnonneg, hden⟩ := h
  have hpos : (0 : ℚ) < 10 ^ places := by positivity
  have hnum : 0 ≤ (q * 10 ^ places).num := Rat.num_nonneg.mpr (by positivity)
  have hcast : ((ticksOf places q : ℕ) : ℚ) = q * 10 ^ places := by
    conv_rhs => rw [← Rat.num_div_den (q * 10 ^ places), hden]
    have hint : ((ticksOf places q : ℕ) : ℤ) = (q * 10 ^ places).num := Int.toNat_of_nonneg hnum
    rw [Nat.cast_one, div_one, ← hint, Int.cast_natCast]
  rw [hcast, mul_div_assoc, div_self hpos.ne', mul_one]

/-- What is printed reads as the number that it was printed for. -/
theorem stod_printDecimal {places : ℕ} {q : ℚ} (h : OnGrid places q) :
    stod (printDecimal places q) = .ok q := by
  have hread := strtod_printTicks places (ticksOf places q)
  rw [ticksOf_div h] at hread
  simp only [stod, printDecimal, hread]
  rfl

end Ticks

end AsioAggregator
