import EntityScript.Number
import EntityScript.Proofs.Keywords
import Mathlib.Computability.Language

/-! Numerals as a language. Reading finds the longest beginning of a text that is a numeral, whatever comes
behind it, and a reader of whole words to which the numeral is given never refuses it. A numeral may grow
where more text follows it, in its last part only; that is why a longer one is never missed. -/

namespace EntityScript

open scoped Computability
open Reading (takeWhile_append_stop)

namespace Grammar

def digit : Language Char := {t | ∃ c : Char, c.isDigit = true ∧ t = [c]}

def digits : Language Char := digit * digit∗

def point : Language Char := {['.']}

def optional (l : Language Char) : Language Char := 1 + l

def sign : Language Char := {['+'], ['-']}

def powerPart : Language Char := {['e'], ['E']} * (optional sign * digits)

/-- Digits with a point or without, and digits behind a point. -/
def mantissa : Language Char := digits * optional (point * digit∗) + point * digits

def numerals : Language Char := optional sign * (mantissa * optional powerPart)

/-- The words for what no digits write, in either case. -/
def special : Language Char :=
  {t | t.map Char.toLower = "inf".toList ∨ t.map Char.toLower = "infinity".toList ∨
    t.map Char.toLower = "nan".toList}

/-- What a reader of numbers takes for a number, if nothing else stands in the word. -/
def numberWords : Language Char :=
  optional sign * (special + (digits + digits * point * digit∗ + digit∗ * point * digits) * optional powerPart)

/-- The text is the longest in the language that `cs` begins with. -/
structure Longest (l : Language Char) (cs t : List Char) : Prop where
  mem : t ∈ l
  beginning : t <+: cs
  longest : ∀ u ∈ l, u <+: cs → u.length ≤ t.length

variable {t : List Char} {l : Language Char}

theorem mem_optional : t ∈ optional l ↔ t = [] ∨ t ∈ l := Iff.rfl

theorem mem_star_digit : t ∈ digit∗ ↔ ∀ c ∈ t, c.isDigit = true := by
  rw [Language.mem_kstar]
  constructor
  · rintro ⟨parts, rfl, hparts⟩ c hc
    obtain ⟨part, hpart, hc⟩ := List.mem_flatten.1 hc
    obtain ⟨d, hd, rfl⟩ := hparts part hpart
    rwa [List.mem_singleton.1 hc]
  · intro h
    refine ⟨t.map ([·]), by rw [← List.flatMap_def, List.flatMap_singleton'], fun part hpart => ?_⟩
    obtain ⟨c, hc, rfl⟩ := List.mem_map.1 hpart
    exact ⟨c, h c hc, rfl⟩

theorem mem_digits : t ∈ digits ↔ t ≠ [] ∧ ∀ c ∈ t, c.isDigit = true := by
  rw [digits, Language.mem_mul]
  constructor
  · rintro ⟨-, ⟨c, hc, rfl⟩, more, hmore, rfl⟩
    exact ⟨List.cons_ne_nil _ _, List.forall_mem_cons.2 ⟨hc, mem_star_digit.1 hmore⟩⟩
  · rintro ⟨hne, hdigits⟩
    obtain ⟨c, more, rfl⟩ := List.exists_cons_of_ne_nil hne
    obtain ⟨hc, hmore⟩ := List.forall_mem_cons.1 hdigits
    exact ⟨[c], ⟨c, hc, rfl⟩, more, mem_star_digit.2 hmore, rfl⟩

theorem mem_optional_sign : t ∈ optional sign ↔ ∃ s : Option Char, (∀ c ∈ s, c = '+' ∨ c = '-') ∧ s.toList = t := by
  rw [mem_optional]
  constructor
  · rintro (rfl | rfl | rfl)
    · exact ⟨none, nofun, rfl⟩
    · exact ⟨some '+', by simp, rfl⟩
    · exact ⟨some '-', by simp, rfl⟩
  · rintro ⟨s, hs, rfl⟩
    cases s with
    | none => exact .inl rfl
    | some c =>
      obtain rfl | rfl := hs c rfl
      · exact .inr (.inl rfl)
      · exact .inr (.inr rfl)

/-- With the digits before the point left out or put in, the same texts have digits and a point. -/
theorem mantissa_eq : mantissa = digits + digits * point * digit∗ + digit∗ * point * digits := by
  have hstar : digit∗ * point * digits = point * digits + digits * point * digits := by
    nth_rewrite 1 [← Language.one_add_self_mul_kstar_eq_kstar digit]
    rw [add_mul, add_mul, one_mul, digits]
  have hle : digits * point * digits ≤ digits * point * digit∗ := by
    rintro t ⟨front, hfront, back, hback, rfl⟩
    exact ⟨front, hfront, back, mem_star_digit.2 (mem_digits.1 hback).2, rfl⟩
  calc mantissa = digits + digits * point * digit∗ + point * digits := by
        rw [mantissa, optional, mul_add, mul_one, mul_assoc]
    _ = digits + (digits * point * digits + digits * point * digit∗) + point * digits := by
        rw [(Language.le_iff _ _).1 hle]
    _ = digits + digits * point * digit∗ + digit∗ * point * digits := by
        rw [hstar]
        ac_rfl

theorem numberWords_eq : numberWords = optional sign * special + numerals := by
  rw [numberWords, ← mantissa_eq, mul_add, numerals]

end Grammar

structure PowerPart.WellFormed (p : PowerPart) : Prop where
  marker : p.marker = 'e' ∨ p.marker = 'E'
  sign : ∀ c ∈ p.sign, c = '+' ∨ c = '-'
  nonempty : p.digits ≠ []
  digits : ∀ c ∈ p.digits, c.isDigit = true

namespace Numeral

open Grammar

def fractionText (fraction : Option (List Char)) : List Char := fraction.elim [] ('.' :: ·)

def powerText (power : Option PowerPart) : List Char := power.elim [] PowerPart.text

structure WellFormed (n : Numeral) : Prop where
  sign : ∀ c ∈ n.sign, c = '+' ∨ c = '-'
  whole : ∀ c ∈ n.whole, c.isDigit = true
  fraction : ∀ digits ∈ n.fraction, ∀ c ∈ digits, c.isDigit = true
  nonempty : n.whole ≠ [] ∨ n.fraction.getD [] ≠ []
  power : ∀ p ∈ n.power, p.WellFormed

variable {n : Numeral} {cs rest : List Char}

theorem text_eq (n : Numeral) :
    n.text = n.sign.toList ++ ((n.whole ++ fractionText n.fraction) ++ powerText n.power) := by
  obtain ⟨sign, whole, fraction, power⟩ := n
  cases fraction <;> cases power <;> simp [text, fractionText, powerText]

theorem mem_optional_powerPart {t : List Char} :
    t ∈ optional powerPart ↔ ∃ power : Option PowerPart, (∀ p ∈ power, p.WellFormed) ∧ powerText power = t := by
  rw [mem_optional]
  constructor
  · rintro (rfl | ⟨marker, hmarker, -, ⟨sign, hsign, digits, hdigits, rfl⟩, rfl⟩)
    · exact ⟨none, nofun, rfl⟩
    · obtain ⟨sign, hsigns, rfl⟩ := mem_optional_sign.1 hsign
      obtain ⟨hne, hall⟩ := mem_digits.1 hdigits
      obtain ⟨c, hc, rfl⟩ : ∃ c, (c = 'e' ∨ c = 'E') ∧ [c] = marker := by
        rcases hmarker with rfl | rfl
        · exact ⟨'e', .inl rfl, rfl⟩
        · exact ⟨'E', .inr rfl, rfl⟩
      refine ⟨some ⟨c, sign, digits⟩, fun p hp => ?_, rfl⟩
      cases hp
      exact ⟨hc, hsigns, hne, hall⟩
  · rintro ⟨power, hpower, rfl⟩
    cases power with
    | none => exact .inl rfl
    | some p =>
      obtain ⟨hmarker, hsign, hne, hdigits⟩ := hpower p rfl
      refine .inr ⟨[p.marker], ?_, p.sign.toList ++ p.digits, ?_, rfl⟩
      · exact hmarker.imp (congrArg ([·])) (congrArg ([·]))
      · exact Language.append_mem_mul (mem_optional_sign.2 ⟨p.sign, hsign, rfl⟩) (mem_digits.2 ⟨hne, hdigits⟩)

theorem mem_mantissa {t : List Char} :
    t ∈ mantissa ↔ ∃ whole fraction, (∀ c ∈ whole, c.isDigit = true) ∧
      (∀ digits ∈ fraction, ∀ c ∈ digits, c.isDigit = true) ∧ (whole ≠ [] ∨ fraction.getD [] ≠ []) ∧
      whole ++ fractionText fraction = t := by
  rw [mantissa, Language.mem_add, Language.mem_mul, Language.mem_mul]
  constructor
  · rintro (⟨whole, hwhole, fraction, hfraction, rfl⟩ | ⟨-, rfl, fraction, hfraction, rfl⟩)
    · obtain ⟨hne, hwhole⟩ := mem_digits.1 hwhole
      obtain rfl | ⟨-, rfl, fraction, hmore, rfl⟩ := mem_optional.1 hfraction
      · exact ⟨whole, none, hwhole, nofun, .inl hne, rfl⟩
      · refine ⟨whole, some fraction, hwhole, fun digits hdigits => ?_, .inl hne, rfl⟩
        cases hdigits
        exact mem_star_digit.1 hmore
    · obtain ⟨hne, hfraction⟩ := mem_digits.1 hfraction
      refine ⟨[], some fraction, nofun, fun more hmore => ?_, .inr hne, rfl⟩
      cases hmore
      exact hfraction
  · rintro ⟨whole, fraction, hwhole, hfraction, hne, rfl⟩
    by_cases hempty : whole = []
    · obtain ⟨digits, rfl⟩ : ∃ digits, fraction = some digits := by
        cases fraction with
        | none => exact absurd rfl (hne.resolve_left (not_not_intro hempty))
        | some digits => exact ⟨digits, rfl⟩
      have hdigits : digits ≠ [] := hne.resolve_left (not_not_intro hempty)
      subst hempty
      exact .inr ⟨['.'], rfl, digits, mem_digits.2 ⟨hdigits, hfraction digits rfl⟩, rfl⟩
    · refine .inl ⟨whole, mem_digits.2 ⟨hempty, hwhole⟩, fractionText fraction, mem_optional.2 ?_, rfl⟩
      cases fraction with
      | none => exact .inl rfl
      | some digits => exact .inr ⟨['.'], rfl, digits, mem_star_digit.2 (hfraction digits rfl), rfl⟩

theorem mem_numerals {t : List Char} : t ∈ numerals ↔ ∃ n : Numeral, n.WellFormed ∧ n.text = t := by
  rw [numerals, Language.mem_mul]
  constructor
  · rintro ⟨sign, hsign, -, ⟨front, hfront, power, hpower, rfl⟩, rfl⟩
    obtain ⟨sign, hsigns, rfl⟩ := mem_optional_sign.1 hsign
    obtain ⟨whole, fraction, hwhole, hfraction, hne, rfl⟩ := mem_mantissa.1 hfront
    obtain ⟨power, hpowers, rfl⟩ := mem_optional_powerPart.1 hpower
    exact ⟨⟨sign, whole, fraction, power⟩, ⟨hsigns, hwhole, hfraction, hne, hpowers⟩, text_eq _⟩
  · rintro ⟨n, hn, rfl⟩
    rw [text_eq]
    have hfront : n.whole ++ fractionText n.fraction ∈ mantissa :=
      mem_mantissa.2 ⟨n.whole, n.fraction, hn.whole, hn.fraction, hn.nonempty, rfl⟩
    have hpower : powerText n.power ∈ optional powerPart := mem_optional_powerPart.2 ⟨n.power, hn.power, rfl⟩
    exact ⟨n.sign.toList, mem_optional_sign.2 ⟨n.sign, hn.sign, rfl⟩, _, Language.append_mem_mul hfront hpower, rfl⟩

theorem text_ne_nil (hn : n.WellFormed) : n.text ≠ [] := by
  intro h
  rw [text_eq, List.append_eq_nil_iff, List.append_eq_nil_iff, List.append_eq_nil_iff] at h
  obtain ⟨-, ⟨hwhole, hfraction⟩, -⟩ := h
  refine hn.nonempty.elim (fun hne => hne hwhole) fun hne => ?_
  cases hdigits : n.fraction with
  | none => exact hne (by rw [hdigits]; rfl)
  | some digits =>
    rw [hdigits] at hfraction
    exact List.cons_ne_nil _ _ hfraction

theorem takeSign_spec {sign : Option Char} (h : takeSign cs = (sign, rest)) :
    sign.toList ++ rest = cs ∧ ∀ c ∈ sign, c = '+' ∨ c = '-' := by
  unfold takeSign at h
  split at h <;> cases h <;> simp

theorem takeSign_append {sign : Option Char} (hsign : ∀ c ∈ sign, c = '+' ∨ c = '-')
    (hcs : ∀ c ∈ cs.head?, c ≠ '+' ∧ c ≠ '-') : takeSign (sign.toList ++ cs) = (sign, cs) := by
  cases sign with
  | some c => obtain rfl | rfl := hsign c rfl <;> rfl
  | none =>
    change takeSign cs = (none, cs)
    unfold takeSign
    split
    · exact absurd rfl (hcs '+' rfl).1
    · exact absurd rfl (hcs '-' rfl).2
    · rfl

theorem takeFraction_spec {fraction : Option (List Char)} (h : takeFraction cs = (fraction, rest)) :
    fractionText fraction ++ rest = cs ∧ ∀ digits ∈ fraction, ∀ c ∈ digits, c.isDigit = true := by
  unfold takeFraction at h
  split at h <;> cases h
  · refine ⟨congrArg ('.' :: ·) List.takeWhile_append_dropWhile, fun digits hdigits c hc => ?_⟩
    cases hdigits
    exact List.mem_takeWhile_imp hc
  · exact ⟨rfl, nofun⟩

theorem takePower_spec {p : PowerPart} (h : takePower cs = some p) : p.WellFormed ∧ p.text <+: cs := by
  unfold takePower at h
  cases cs with
  | nil => cases h
  | cons c cs =>
    rcases hread : takeSign cs with ⟨sign, rest⟩
    obtain ⟨hcs, hsign⟩ := takeSign_spec hread
    dsimp only at h
    rw [hread] at h
    dsimp only at h
    split at h
    · rename_i hmarker
      split at h
      · cases h
      · rename_i hempty
        cases h
        refine ⟨⟨hmarker, hsign, by simpa using hempty, fun d hd => List.mem_takeWhile_imp hd⟩, ?_⟩
        refine ⟨rest.dropWhile Char.isDigit, ?_⟩
        rw [PowerPart.text, List.cons_append, List.cons_append, List.append_assoc, List.takeWhile_append_dropWhile,
          hcs]
    · cases h

section Parts

variable {sign : Option Char} {body left whole : List Char} {fraction : Option (List Char)}

theorem read?_eq (hsign : takeSign cs = (sign, body)) (hwhole : body.takeWhile Char.isDigit = whole)
    (hfraction : takeFraction (body.dropWhile Char.isDigit) = (fraction, left)) :
    read? cs = if whole.isEmpty && (fraction.getD []).isEmpty then none
      else some ⟨sign, whole, fraction, takePower left⟩ := by
  unfold read?
  rw [hsign]
  dsimp only
  rw [hwhole, hfraction]

/-- With a digit before the power part the parts make a numeral. -/
theorem read?_of_parts (hsign : takeSign cs = (sign, body)) (hwhole : body.takeWhile Char.isDigit = whole)
    (hfraction : takeFraction (body.dropWhile Char.isDigit) = (fraction, left))
    (hne : whole ≠ [] ∨ fraction.getD [] ≠ []) : read? cs = some ⟨sign, whole, fraction, takePower left⟩ := by
  rw [read?_eq hsign hwhole hfraction, if_neg]
  simpa [imp_iff_not_or] using hne

end Parts

theorem read?_spec (h : read? cs = some n) : n.WellFormed ∧ n.text <+: cs := by
  rcases hsign : takeSign cs with ⟨sign, body⟩
  rcases hfraction : takeFraction (body.dropWhile Char.isDigit) with ⟨fraction, left⟩
  rw [read?_eq hsign rfl hfraction] at h
  split at h
  · cases h
  · rename_i hempty
    cases h
    obtain ⟨hcs, hs⟩ := takeSign_spec hsign
    obtain ⟨hbody, hf⟩ := takeFraction_spec hfraction
    have hpower : powerText (takePower left) <+: left := by
      cases htake : takePower left with
      | none => exact List.nil_prefix
      | some p => exact (takePower_spec htake).2
    obtain ⟨more, hmore⟩ := hpower
    constructor
    · exact
        { sign := hs
          whole := fun c hc => List.mem_takeWhile_imp hc
          fraction := hf
          nonempty := by simpa [imp_iff_not_or] using hempty
          power := fun p hp => (takePower_spec hp).1 }
    · refine ⟨more, ?_⟩
      rw [text_eq]
      simp only [List.append_assoc]
      rw [hmore, hbody, List.takeWhile_append_dropWhile, hcs]

/-- What the numeral grows to where `rest` comes behind it. -/
def grown (n : Numeral) (rest : List Char) : Numeral :=
  match n.power, n.fraction with
  | some p, _ => { n with power := some { p with digits := p.digits ++ rest.takeWhile Char.isDigit } }
  | none, some digits =>
    { n with
      fraction := some (digits ++ rest.takeWhile Char.isDigit)
      power := takePower (rest.dropWhile Char.isDigit) }
  | none, none =>
    { n with
      whole := n.whole ++ rest.takeWhile Char.isDigit
      fraction := (takeFraction (rest.dropWhile Char.isDigit)).1
      power := takePower (takeFraction (rest.dropWhile Char.isDigit)).2 }

theorem takePower_append {p : PowerPart} (hp : p.WellFormed) (rest : List Char) :
    takePower (p.text ++ rest) = some { p with digits := p.digits ++ rest.takeWhile Char.isDigit } := by
  obtain ⟨c, digits, hcons⟩ := List.exists_cons_of_ne_nil hp.nonempty
  have hdigit : ∀ d ∈ (p.digits ++ rest).head?, d ≠ '+' ∧ d ≠ '-' := by
    intro d hd
    have hmem : d ∈ p.digits := by
      rw [hcons] at hd ⊢
      cases hd
      exact List.mem_cons_self
    have hisDigit := hp.digits d hmem
    constructor <;> rintro rfl <;> exact absurd hisDigit (by decide)
  have hsign := takeSign_append hp.sign hdigit
  have htake : (p.digits ++ rest).takeWhile Char.isDigit = p.digits ++ rest.takeWhile Char.isDigit :=
    List.takeWhile_append_of_pos hp.digits
  rw [PowerPart.text, List.cons_append, List.cons_append, List.append_assoc, takePower, if_pos hp.marker, hsign]
  dsimp only
  rw [htake, if_neg (by simp [hp.nonempty])]

theorem takeMantissa_append {whole tail : List Char} {fraction : Option (List Char)}
    (hwhole : ∀ c ∈ whole, c.isDigit = true) (hfraction : ∀ digits ∈ fraction, ∀ c ∈ digits, c.isDigit = true)
    (hstop : ∀ c ∈ tail.head?, c.isDigit = false ∧ c ≠ '.') :
    (whole ++ (fractionText fraction ++ tail)).takeWhile Char.isDigit = whole ∧
      takeFraction ((whole ++ (fractionText fraction ++ tail)).dropWhile Char.isDigit) = (fraction, tail) := by
  cases fraction with
  | none =>
    obtain ⟨htake, hdrop⟩ := takeWhile_append_stop hwhole fun c hc => (hstop c hc).1
    refine ⟨htake, ?_⟩
    change takeFraction ((whole ++ tail).dropWhile Char.isDigit) = _
    rw [hdrop]
    unfold takeFraction
    split
    · exact absurd rfl (hstop '.' rfl).2
    · rfl
  | some digits =>
    have hpoint : ∀ c ∈ ('.' :: (digits ++ tail)).head?, c.isDigit = false := by simp
    obtain ⟨htake, hdrop⟩ := takeWhile_append_stop hwhole hpoint
    obtain ⟨htakes, hdrops⟩ := takeWhile_append_stop (hfraction digits rfl) fun c hc => (hstop c hc).1
    refine ⟨htake, ?_⟩
    change takeFraction ((whole ++ '.' :: (digits ++ tail)).dropWhile Char.isDigit) = _
    rw [hdrop, takeFraction, htakes, hdrops]

theorem WellFormed.head_ne_sign (hn : n.WellFormed) (tail : List Char) :
    ∀ c ∈ (n.whole ++ (fractionText n.fraction ++ tail)).head?, c ≠ '+' ∧ c ≠ '-' := by
  intro c hc
  have hfirst : c.isDigit = true ∨ c = '.' := by
    cases hwhole : n.whole with
    | cons d digits =>
      rw [hwhole] at hc
      cases hc
      exact .inl (hn.whole c (by rw [hwhole]; exact List.mem_cons_self))
    | nil =>
      cases hfraction : n.fraction with
      | none => exact absurd hn.nonempty (by simp [hwhole, hfraction])
      | some digits =>
        rw [hwhole, hfraction] at hc
        cases hc
        exact .inr rfl
  constructor <;> rintro rfl <;> exact absurd hfirst (by decide)

theorem read?_append (hn : n.WellFormed) (rest : List Char) : read? (n.text ++ rest) = some (n.grown rest) := by
  obtain ⟨sign, whole, fraction, power⟩ := n
  have hhead := hn.head_ne_sign (powerText power ++ rest)
  obtain ⟨hs, hw, hf, hne, hp⟩ := hn
  rw [text_eq]
  simp only [List.append_assoc] at hs hw hf hne hp hhead ⊢
  have hsign := takeSign_append hs hhead
  cases power with
  | some p =>
    have hwf := hp p rfl
    have hstop : ∀ c ∈ (p.text ++ rest).head?, c.isDigit = false ∧ c ≠ '.' := by
      intro c hc
      cases hc
      rcases hwf.marker with h | h <;> rw [h] <;> decide
    obtain ⟨hwhole, hfraction⟩ := takeMantissa_append hw hf hstop
    rw [read?_of_parts hsign hwhole hfraction hne, takePower_append hwf]
    rfl
  | none =>
    cases fraction with
    | some digits =>
      have hpoint : ∀ c ∈ ('.' :: (digits ++ rest)).head?, c.isDigit = false := by simp
      obtain ⟨hwhole, hdrop⟩ := takeWhile_append_stop hw hpoint
      have hdigits : ∀ c ∈ digits, c.isDigit = true := hf digits rfl
      have hfraction : takeFraction ((whole ++ '.' :: (digits ++ rest)).dropWhile Char.isDigit) =
          (some (digits ++ rest.takeWhile Char.isDigit), rest.dropWhile Char.isDigit) := by
        rw [hdrop, takeFraction, List.takeWhile_append_of_pos hdigits, List.dropWhile_append_of_pos hdigits]
      exact read?_of_parts hsign hwhole hfraction
        (hne.imp_right fun h => List.append_ne_nil_of_left_ne_nil h _)
    | none =>
      have hwhole : (whole ++ rest).takeWhile Char.isDigit = whole ++ rest.takeWhile Char.isDigit :=
        List.takeWhile_append_of_pos hw
      have hfraction : takeFraction ((whole ++ rest).dropWhile Char.isDigit) =
          takeFraction (rest.dropWhile Char.isDigit) := by rw [List.dropWhile_append_of_pos hw]
      have hdigit : whole ≠ [] := hne.resolve_right (by simp)
      exact read?_of_parts hsign hwhole hfraction (.inl (List.append_ne_nil_of_left_ne_nil hdigit _))

theorem text_prefix_grown (n : Numeral) (rest : List Char) : n.text <+: (n.grown rest).text := by
  obtain ⟨sign, whole, fraction, power⟩ := n
  rw [text_eq, text_eq]
  cases power with
  | some p => exact ⟨rest.takeWhile Char.isDigit, by simp [grown, powerText, PowerPart.text]⟩
  | none =>
    cases fraction with
    | some digits =>
      refine ⟨rest.takeWhile Char.isDigit ++ powerText (takePower (rest.dropWhile Char.isDigit)), ?_⟩
      simp [grown, powerText, fractionText]
    | none =>
      refine ⟨rest.takeWhile Char.isDigit ++ (fractionText (takeFraction (rest.dropWhile Char.isDigit)).1 ++
        powerText (takePower (takeFraction (rest.dropWhile Char.isDigit)).2)), ?_⟩
      simp [grown, powerText, fractionText]

theorem grown_nil (n : Numeral) : n.grown [] = n := by
  obtain ⟨sign, whole, fraction, power⟩ := n
  cases power <;> cases fraction <;> simp [grown, takePower, takeFraction]

/-- A numeral alone is read whole. -/
theorem read?_text (hn : n.WellFormed) : read? n.text = some n := by
  have hread := read?_append hn []
  rwa [List.append_nil, grown_nil] at hread

/-- No text has a longer numeral at its beginning than the one that is read. -/
theorem longest_of_read? (h : read? cs = some n) : Longest numerals cs n.text := by
  obtain ⟨hn, hbeginning⟩ := read?_spec h
  refine ⟨mem_numerals.2 ⟨n, hn, rfl⟩, hbeginning, fun t ht hbegins => ?_⟩
  obtain ⟨m, hm, rfl⟩ := mem_numerals.1 ht
  obtain ⟨rest, rfl⟩ := hbegins
  obtain rfl : m.grown rest = n := Option.some.inj ((read?_append hm rest).symm.trans h)
  exact (m.text_prefix_grown rest).length_le

theorem read?_eq_none_iff : read? cs = none ↔ ∀ t, t <+: cs → t ≠ [] → t ∉ numerals := by
  constructor
  · rintro h t ⟨rest, rfl⟩ - ht
    obtain ⟨n, hn, rfl⟩ := mem_numerals.1 ht
    rw [read?_append hn] at h
    cases h
  · intro h
    cases hread : read? cs with
    | none => rfl
    | some n =>
      obtain ⟨hn, hbeginning⟩ := read?_spec hread
      exact absurd (mem_numerals.2 ⟨n, hn, rfl⟩) (h n.text hbeginning (text_ne_nil hn))

end Numeral

namespace Number

open Grammar

variable {word : List Char}

theorem head_ne_sign_of_special (h : word ∈ special) : ∀ c ∈ word.head?, c ≠ '+' ∧ c ≠ '-' := by
  intro c hc
  have hlower : c.toLower ∈ (word.map Char.toLower).head? := by
    rw [List.head?_map]
    exact Option.mem_map_of_mem _ hc
  rcases h with h | h | h
  all_goals
    rw [h] at hlower
    constructor <;> rintro rfl <;> exact absurd hlower (by decide)

theorem isSpecialWord_iff : isSpecialWord word = true ↔ word ∈ optional sign * special := by
  have hname (w : List Char) (name : String) :
      Text.asciiLowercase (String.ofList w) = name ↔ w.map Char.toLower = name.toList := by
    rw [← String.toList_inj]
    simp [Text.asciiLowercase]
  have hspecial : isSpecialWord word = true ↔ (Numeral.takeSign word).2 ∈ special := by
    simp only [isSpecialWord, Bool.or_eq_true, beq_iff_eq, hname, or_assoc]
    exact Iff.rfl
  rw [hspecial, Language.mem_mul]
  constructor
  · intro h
    rcases hread : Numeral.takeSign word with ⟨sign, rest⟩
    rw [hread] at h
    obtain ⟨hsplit, hsign⟩ := Numeral.takeSign_spec hread
    exact ⟨_, mem_optional_sign.2 ⟨sign, hsign, rfl⟩, rest, h, hsplit⟩
  · rintro ⟨front, hfront, rest, hrest, rfl⟩
    obtain ⟨sign, hsign, rfl⟩ := mem_optional_sign.1 hfront
    rwa [Numeral.takeSign_append hsign (head_ne_sign_of_special hrest)]

/-- A whole word is a number when a reader of numbers takes it for one. -/
theorem isNumberWord_iff {s : String} : isNumberWord s = true ↔ s.toList ∈ numberWords := by
  rw [isNumberWord, Bool.or_eq_true, isSpecialWord_iff, numberWords_eq, Language.mem_add, Numeral.mem_numerals]
  refine or_congr_right ⟨fun h => ?_, ?_⟩
  · split at h
    · rename_i n hread
      exact ⟨n, (Numeral.read?_spec hread).1, eq_of_beq h⟩
    · cases h
  · rintro ⟨n, hn, htext⟩
    rw [← htext, Numeral.read?_text hn]
    exact beq_self_eq_true _

/-- A reader of whole words as numbers. It takes the words that numbers are written in and no others, and
reads a numeral as the number nearest to it. -/
structure WordReader where
  read? : List Char → Option Float32
  accepts : ∀ word, (read? word).isSome = true ↔ word ∈ numberWords
  nearest : ∀ n : Numeral, n.WellFormed → ∀ x ∈ read? n.text, x = n.value

/-- The number that the text starts with is read from the longest numeral that it starts with behind its white
space, and every reader of words takes that numeral. It is 0 unread where there is no numeral to find. -/
theorem parse_longest (reader : WordReader) (s : String) :
    (Numeral.read? (Text.trimStart s.toList) = none ↔
      ∀ t, t <+: Text.trimStart s.toList → t ≠ [] → t ∉ numerals) ∧
    match Numeral.read? (Text.trimStart s.toList) with
    | none => parse s = 0
    | some n => Longest numerals (Text.trimStart s.toList) n.text ∧ reader.read? n.text = some (parse s) := by
  refine ⟨Numeral.read?_eq_none_iff, ?_⟩
  rw [parse]
  cases hread : Numeral.read? (Text.trimStart s.toList) with
  | none => rfl
  | some n =>
    have hn : n.WellFormed := (Numeral.read?_spec hread).1
    have hword : n.text ∈ numberWords := by
      rw [numberWords_eq, Language.mem_add]
      exact .inr (Numeral.mem_numerals.2 ⟨n, hn, rfl⟩)
    obtain ⟨x, hx⟩ := Option.isSome_iff_exists.1 ((reader.accepts n.text).2 hword)
    refine ⟨Numeral.longest_of_read? hread, ?_⟩
    rw [hx, reader.nearest n hn x hx]

def specialValue (word : List Char) : Float32 :=
  if Text.asciiLowercase (String.ofList (Numeral.takeSign word).2) == "nan" then Float32.ofBits 0x7fc00000
  else Binary32.ofMagnitude (word.head? == some '-') (255 * Binary32.pow2 23)

def WordReader.byParts : WordReader where
  read? word :=
    match (Numeral.read? word).filter (·.text = word) with
    | some n => some n.value
    | none => if isSpecialWord word then some (specialValue word) else none
  accepts word := by
    have h := isNumberWord_iff (s := String.ofList word)
    rw [String.toList_ofList] at h
    rw [← h, isNumberWord, String.toList_ofList]
    cases Numeral.read? word with
    | none => simp
    | some n =>
      by_cases htext : n.text = word <;> simp [htext, Option.filter]
  nearest n hn x hx := by
    rw [Numeral.read?_text hn] at hx
    simpa [Option.filter, eq_comm] using hx

/-- Behind the `e` and its sign stands no digit, so the numeral ends before them. -/
theorem parse_longest_unfinished_power :
    Longest numerals "+.5e-µ1".toList "+.5".toList ∧
      WordReader.byParts.read? "+.5".toList = some (parse "\t\u2003+.5e-µ1") ∧ parse "\t\u2003+.5e-µ1" = 0.5 := by
  have hmain := (parse_longest .byParts "\t\u2003+.5e-µ1").2
  have htrim : Text.trimStart "\t\u2003+.5e-µ1".toList = "+.5e-µ1".toList := by decide
  have hread : Numeral.read? "+.5e-µ1".toList = some ⟨some '+', [], some ['5'], none⟩ := by decide
  have hhalf : WordReader.byParts.read? "+.5".toList = some 0.5 := by decide +kernel
  rw [htrim, hread] at hmain
  exact ⟨hmain.1, hmain.2, Option.some.inj (hmain.2.symm.trans hhalf)⟩

end Number

end EntityScript
