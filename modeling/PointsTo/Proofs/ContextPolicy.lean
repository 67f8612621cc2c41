import PointsTo.ContextPolicy
import PointsTo.Proofs.Signature

/-!
# Spellings of context policies

A policy has one spelling, and only spellings of policies are read. The number in a spelling is a
decimal numeral without leading zeros, of a number that is positive and below `2 ^ 64`.

* `Text.value?_eq_some_iff`: numerals are read as the numbers that they are written for;
* `ContextPolicy.Spells`: the spellings;
* `ContextPolicy.parse_spellings`: what is read, and what is reported.
-/

namespace PointsTo

namespace Text

variable {n : Nat} {c : Char} {ds : List Char}

/-! ### Numerals -/

theorem digitsValue_eq (ds : List Char) : digitsValue ds = Nat.ofDigitChars 10 ds 0 :=
  Nat.ofDigitChars_eq_foldl.symm

theorem toNat_of_isDigit (h : c.isDigit = true) : 48 ≤ c.toNat ∧ c.toNat ≤ 57 := by
  simpa [Char.isDigit, Char.le_def, UInt32.le_iff_toNat_le] using h

theorem digitChar_toNat (h : c.isDigit = true) : Nat.digitChar (c.toNat - 48) = c := by
  have hc := toNat_of_isDigit h
  apply Char.toNat_inj.1
  rw [Nat.toNat_digitChar_of_lt_ten (by omega)]
  omega

/-- Further digits are written after the numeral of a positive number. -/
theorem toDigits_append (hn : 0 < n) (hds : ∀ d ∈ ds, d.isDigit = true) :
    Nat.toDigits 10 n ++ ds = Nat.toDigits 10 (Nat.ofDigitChars 10 ds n) := by
  induction ds generalizing n with
  | nil => simp
  | cons d ds ih =>
    obtain ⟨hd, hds⟩ := List.forall_mem_cons.1 hds
    have hlt : d.toNat - 48 < 10 := by
      have := toNat_of_isDigit hd
      omega
    have hone : Nat.toDigits 10 (d.toNat - 48) = [d] := by
      rw [Nat.toDigits_of_lt_base hlt, digitChar_toNat hd]
    calc Nat.toDigits 10 n ++ d :: ds
        = Nat.toDigits 10 n ++ Nat.toDigits 10 (d.toNat - 48) ++ ds := by
          rw [hone, List.append_assoc, List.singleton_append]
      _ = Nat.toDigits 10 (10 * n + (d.toNat - 48)) ++ ds := by
          rw [Nat.toDigits_append_toDigits (by decide) hn hlt]
      _ = Nat.toDigits 10 (Nat.ofDigitChars 10 (d :: ds) n) := by
          rw [ih (by omega) hds, Nat.ofDigitChars_cons]
          rfl

theorem isDigit_of_mem_toDigits {d : Char} (hd : d ∈ Nat.toDigits 10 n) : d.isDigit = true :=
  Nat.isDigit_of_mem_toDigits (by decide) (by decide) hd

/-- Numerals of positive numbers do not start with zero. -/
theorem head?_toDigits_ne (hn : 0 < n) : (Nat.toDigits 10 n).head? ≠ some '0' := by
  induction n using Nat.strongRecOn with
  | _ n ih =>
    rw [Nat.toDigits_eq_if (by decide)]
    split
    · simp only [List.head?_cons, ne_eq, Option.some.injEq, Nat.digitChar_eq_zero]
      omega
    · rw [List.head?_append_of_ne_nil _ Nat.toDigits_ne_nil]
      exact ih (n / 10) (by omega) (by omega)

theorem value?_cons {d : Char} : value? (d :: ds) = some n ↔
    (d ≠ '0' ∧ ∀ x ∈ d :: ds, x.isDigit = true) ∧ Nat.ofDigitChars 10 (d :: ds) 0 = n := by
  simp only [value?, Option.ite_none_right_eq_some, Bool.and_eq_true, bne_iff_ne, List.all_eq_true,
    digitsValue_eq, Option.some.injEq]

/-- A numeral without leading zeros is read as the number that it is written for. -/
theorem value?_eq_some_iff : value? ds = some n ↔ 0 < n ∧ Nat.toDigits 10 n = ds := by
  constructor
  · intro h
    cases ds with
    | nil => cases h
    | cons d ds =>
      obtain ⟨⟨hzero, hdigits⟩, rfl⟩ := value?_cons.1 h
      obtain ⟨hd, hds⟩ := List.forall_mem_cons.1 hdigits
      have hrange := toNat_of_isDigit hd
      have hpos : 0 < d.toNat - 48 := by
        have : d.toNat ≠ 48 := fun heq => hzero (Char.toNat_inj.1 heq)
        omega
      have hwritten : Nat.toDigits 10 (Nat.ofDigitChars 10 (d :: ds) 0) = d :: ds := by
        have hfirst : 10 * 0 + (d.toNat - '0'.toNat) = d.toNat - 48 := Nat.zero_add _
        rw [Nat.ofDigitChars_cons, hfirst, ← toDigits_append hpos hds,
          Nat.toDigits_of_lt_base (by omega), digitChar_toNat hd, List.singleton_append]
      refine ⟨Nat.pos_of_ne_zero fun hnone => ?_, hwritten⟩
      rw [hnone, Nat.toDigits_zero] at hwritten
      exact hzero (List.cons.inj hwritten).1.symm
  · rintro ⟨hn, rfl⟩
    obtain ⟨d, ds, heq⟩ := List.exists_cons_of_ne_nil (Nat.toDigits_ne_nil (n := n) (b := 10))
    have hhead := head?_toDigits_ne hn
    have hdigits : ∀ x ∈ Nat.toDigits 10 n, x.isDigit = true := fun x => isDigit_of_mem_toDigits
    have hvalue := Nat.ofDigitChars_ten_toDigits (n := n)
    rw [heq] at hhead hdigits hvalue ⊢
    exact value?_cons.2 ⟨⟨fun hd => hhead (by rw [hd]; rfl), hdigits⟩, hvalue⟩

theorem toList_decimal_append (n : Nat) (word : String) :
    (decimal n ++ word).toList = Nat.toDigits 10 n ++ word.toList := by
  rw [String.toList_append, decimal, String.toList_ofList]

theorem decimal_inj {k : Nat} (h : decimal k = decimal n) : k = n := by
  have hdigits : Nat.toDigits 10 k = Nat.toDigits 10 n := String.ofList_injective h
  rw [← Nat.ofDigitChars_ten_toDigits (n := k), hdigits, Nat.ofDigitChars_ten_toDigits]

end Text

namespace ContextPolicy

variable {s : String} {p : ContextPolicy} {k : Nat}

/-- The spellings of policies. -/
inductive Spells : String → ContextPolicy → Prop
  | insensitive : Spells "ci" .insensitive
  | callSite {k : Nat} (hpos : 1 ≤ k) (hlt : k < Nat.pow 2 64) :
      Spells (Text.decimal k ++ "-call") (.callSite k)
  | object {k : Nat} (hpos : 1 ≤ k) (hlt : k < Nat.pow 2 64) :
      Spells (Text.decimal k ++ "-obj") (.object k)

/-- The number of a policy is positive and below `2 ^ 64`, if it has one. -/
def InRange : ContextPolicy → Prop
  | .insensitive => True
  | .callSite k | .object k => 1 ≤ k ∧ k < Nat.pow 2 64

/-- Each policy in the range has one spelling. -/
theorem spells_iff : Spells s p ↔ p.InRange ∧ p.text = s := by
  constructor
  · rintro (_ | ⟨hpos, hlt⟩ | ⟨hpos, hlt⟩)
    · exact ⟨trivial, rfl⟩
    · exact ⟨⟨hpos, hlt⟩, rfl⟩
    · exact ⟨⟨hpos, hlt⟩, rfl⟩
  · rintro ⟨hp, rfl⟩
    cases p with
    | insensitive => exact .insensitive
    | callSite k => exact .callSite hp.1 hp.2
    | object k => exact .object hp.1 hp.2

section Numeral

variable {word : String} {rest : List Char} (hword : word.toList = '-' :: rest)

include hword

theorem decimal_append_ne (k : Nat) : Text.decimal k ++ word ≠ "ci" := by
  intro heq
  have hdash : '-' ∈ "ci".toList := by simp [← heq, hword]
  exact absurd hdash (by decide)

/-- A numeral ends at the dash. -/
theorem decimal_append_inj {k' : Nat} {word' : String} {rest' : List Char}
    (hword' : word'.toList = '-' :: rest')
    (h : Text.decimal k ++ word = Text.decimal k' ++ word') : k = k' ∧ word = word' := by
  have hlist : Nat.toDigits 10 k ++ '-' :: rest = Nat.toDigits 10 k' ++ '-' :: rest' := by
    rw [← hword, ← hword', ← Text.toList_decimal_append, ← Text.toList_decimal_append, h]
  have hdash : Char.isDigit '-' = false := by decide
  obtain ⟨hdigits, hrest⟩ := Signature.append_stop_inj hdash
    (fun _ => Text.isDigit_of_mem_toDigits) (fun _ => Text.isDigit_of_mem_toDigits) hlist
  refine ⟨Text.decimal_inj (congrArg String.ofList hdigits), String.toList_inj.1 ?_⟩
  rw [hword, hword', hrest]

/-- What is read if a word that starts with a dash follows a numeral. -/
theorem read?_numeral (hpos : 1 ≤ k) : read? (Text.decimal k ++ word).toList =
    if k < Nat.pow 2 64 then
      if word.toList = "-call".toList then some (.callSite k)
      else if word.toList = "-obj".toList then some (.object k)
      else none
    else none := by
  have hdash : Char.isDigit '-' = false := by decide
  obtain ⟨htake, hdrop⟩ :=
    Signature.takeWhile_stop hdash (fun _ => Text.isDigit_of_mem_toDigits (n := k)) rest
  have hci : (Text.decimal k ++ word).toList ≠ "ci".toList := fun heq =>
    decimal_append_ne hword k (String.toList_inj.1 heq)
  rw [read?, if_neg hci, Text.toList_decimal_append, hword, htake, hdrop,
    Text.value?_eq_some_iff.2 ⟨hpos, rfl⟩]

end Numeral

/-- Each policy has a spelling of its own. -/
theorem text_injective {p p' : ContextPolicy} (h : p.text = p'.text) : p = p' := by
  cases p with
  | insensitive =>
    cases p' with
    | insensitive => rfl
    | callSite k' => exact absurd h.symm (decimal_append_ne rfl k')
    | object k' => exact absurd h.symm (decimal_append_ne rfl k')
  | callSite k =>
    cases p' with
    | insensitive => exact absurd h (decimal_append_ne rfl k)
    | callSite k' => rw [(decimal_append_inj rfl rfl h).1]
    | object k' => exact absurd (decimal_append_inj rfl rfl h).2 (by decide)
  | object k =>
    cases p' with
    | insensitive => exact absurd h (decimal_append_ne rfl k)
    | callSite k' => exact absurd (decimal_append_inj rfl rfl h).2 (by decide)
    | object k' => rw [(decimal_append_inj rfl rfl h).1]

/-! ### Reading -/

theorem read?_of_spells (h : Spells s p) : read? s.toList = some p := by
  cases h with
  | insensitive => rfl
  | callSite hpos hlt => rw [read?_numeral rfl hpos, if_pos hlt, if_pos rfl]
  | object hpos hlt => rw [read?_numeral rfl hpos, if_pos hlt, if_neg (by decide), if_pos rfl]

theorem spells_of_read? (h : read? s.toList = some p) : Spells s p := by
  unfold read? at h
  split at h <;> rename_i hci
  · obtain rfl := String.toList_inj.1 hci
    cases h
    exact .insensitive
  · split at h
    · cases h
    · rename_i k hvalue
      obtain ⟨hpos, hdigits⟩ := Text.value?_eq_some_iff.1 hvalue
      have hs : ∀ word : String, s.toList.dropWhile Char.isDigit = word.toList →
          Text.decimal k ++ word = s := by
        intro word hword
        apply String.toList_inj.1
        rw [Text.toList_decimal_append, hdigits, ← hword, List.takeWhile_append_dropWhile]
      split at h <;> rename_i hlt
      · split at h <;> rename_i hcall
        · cases h
          rw [← hs _ hcall]
          exact .callSite hpos hlt
        · split at h <;> rename_i hobj
          · cases h
            rw [← hs _ hobj]
            exact .object hpos hlt
          · cases h
      · cases h

theorem parse_eq_ok_iff : parse s = .ok p ↔ Spells s p := by
  have hread : read? s.toList = some p ↔ Spells s p := ⟨spells_of_read?, read?_of_spells⟩
  rw [← hread, parse]
  cases read? s.toList with
  | none => simp
  | some p' => simp

theorem parse_eq_error {e : Error} (h : parse s = .error e) : e = .invalidOption option s := by
  unfold parse at h
  split at h
  · cases h
  · exact (Except.error.inj h).symm

theorem parse_eq_error_iff {e : Error} :
    parse s = .error e ↔ (∀ p, ¬ Spells s p) ∧ e = .invalidOption option s := by
  simp only [← parse_eq_ok_iff]
  cases hparse : parse s with
  | ok p => simp
  | error e' => simp [parse_eq_error hparse, eq_comm]

/-- A policy is read if and only if it is in the range and its spelling is given; any other text is
reported. Hence writing and reading undo each other, and no number is taken for another one. -/
theorem parse_spellings :
    (∀ s p, parse s = .ok p ↔ Spells s p) ∧
    (∀ s e, parse s = .error e ↔ (∀ p, ¬ Spells s p) ∧ e = .invalidOption "PTA_CONTEXT" s) ∧
    (∀ s p, parse s = .ok p → p.text = s) ∧
    (∀ p : ContextPolicy, p.InRange → parse p.text = .ok p) ∧
    ∀ p : ContextPolicy, ¬ p.InRange →
      parse p.text = .error (.invalidOption "PTA_CONTEXT" p.text) := by
  refine ⟨fun s p => parse_eq_ok_iff, fun s e => parse_eq_error_iff, fun s p h => ?_,
    fun p hp => ?_, fun p hp => ?_⟩
  · exact (spells_iff.1 (parse_eq_ok_iff.1 h)).2
  · exact parse_eq_ok_iff.2 (spells_iff.2 ⟨hp, rfl⟩)
  · refine parse_eq_error_iff.2 ⟨fun p' hspells => hp ?_, rfl⟩
    obtain ⟨hp', htext⟩ := spells_iff.1 hspells
    rwa [← text_injective htext]

/-- The largest number is read, and the next one is reported. -/
theorem parse_spellings_limit :
    (ContextPolicy.object 18446744073709551615).text = "18446744073709551615-obj" ∧
      parse "18446744073709551615-obj" = .ok (.object 18446744073709551615) ∧
      parse "18446744073709551616-obj" =
        .error (.invalidOption "PTA_CONTEXT" "18446744073709551616-obj") := by
  obtain ⟨-, -, hwritten, hread, hbeyond⟩ := parse_spellings
  have hmax := hread (.object 18446744073709551615) ⟨by decide, by decide⟩
  have hover := hbeyond (.object 18446744073709551616) fun h => absurd h.2 (by decide)
  have hspelled : (ContextPolicy.object 18446744073709551615).text = "18446744073709551615-obj" ∧
      (ContextPolicy.object 18446744073709551616).text = "18446744073709551616-obj" := by
    decide +kernel
  rw [hspelled.1] at hmax
  rw [hspelled.2] at hover
  exact ⟨hwritten _ _ hmax, hmax, hover⟩

end ContextPolicy

end PointsTo
