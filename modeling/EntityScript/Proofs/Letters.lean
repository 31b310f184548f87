import EntityScript.Proofs.Braces

/-! Lowercasing of names. What is in lowercase stays as it is, so a name may be lowercased twice; and a
character that is no letter stays where it is, so markers and braces are found in the lowercase form
exactly where they are in the name. -/

namespace EntityScript

open Reading

namespace Text

/-- The characters that `r` leads to lie beside those that `q` begins with. Where the bounds of the two
meet, one has the even and the other the odd characters. -/
def CaseRun.clears (r q : CaseRun) : Bool :=
  Nat.blt (r.last + r.shift).toNat q.first || Nat.blt q.last (r.first + r.shift).toNat ||
    q.step == 2 && (r.step == 2 || r.first == r.last) && ((r.first + r.shift).toNat + q.first) % 2 == 1

theorem caseRuns_clear : (caseRuns.all fun r => caseRuns.all r.clears) = true := by
  decide +kernel

/-- The runs end in characters, neither in the dotted capital I nor in a capital sigma. -/
theorem caseRuns_end : ∀ r ∈ caseRuns, 0 ≤ r.first + r.shift ∧
    (r.last + r.shift < 0xD800 ∨ 0xDFFF < r.first + r.shift ∧ r.last + r.shift < 0x110000) ∧
    (r.last + r.shift < 0x130 ∨ 0x130 < r.first + r.shift) ∧
    (r.last + r.shift < 0x3A3 ∨ 0x3A3 < r.first + r.shift) := by
  decide +kernel

/-- Only the capitals of ASCII have a lowercase form in ASCII, and the Kelvin sign. -/
theorem caseRuns_ascii : ∀ r ∈ caseRuns,
    r.first = 0x41 ∧ r.last = 0x5A ∧ r.shift = 32 ∨ 0x80 ≤ r.first + r.shift ∨
      r.first = r.last ∧ r.first + r.shift = 0x6B := by
  decide +kernel

def Settled (c : Char) : Prop := c ≠ 'Σ' ∧ lowerChar c = [c]

/-- What a character becomes that the table knows. -/
theorem toNat_lowerChar {c : Char} {run : CaseRun} (hrun : run ∈ caseRuns)
    (hcovers : run.covers c.toNat = true) :
    ((Char.ofNat (c.toNat + run.shift).toNat).toNat : Int) = c.toNat + run.shift := by
  simp only [CaseRun.covers, Bool.and_eq_true, decide_eq_true_eq] at hcovers
  obtain ⟨⟨hfirst, hlast⟩, -⟩ := hcovers
  obtain ⟨hpos, hvalid, -⟩ := caseRuns_end run hrun
  have hchar : (c.toNat + run.shift).toNat.isValidChar := by
    unfold Nat.isValidChar
    omega
  rw [Char.ofNat, dif_pos hchar]
  change ((c.toNat + run.shift).toNat : Int) = _
  omega

theorem settled_of_forall {c : Char} (hdotted : c ≠ 'İ') (hsigma : c ≠ 'Σ')
    (h : ∀ run ∈ caseRuns, run.covers c.toNat = false) : Settled c := by
  have hfind : caseRuns.find? (·.covers c.toNat) = none :=
    List.find?_eq_none.2 fun run hrun => by simp [h run hrun]
  exact ⟨hsigma, by rw [lowerChar, if_neg hdotted, hfind]⟩

theorem settled_of_covers {c : Char} {run : CaseRun} (hrun : run ∈ caseRuns)
    (hcovers : run.covers c.toNat = true) : Settled (Char.ofNat (c.toNat + run.shift).toNat) := by
  have hnat := toNat_lowerChar hrun hcovers
  simp only [CaseRun.covers, Bool.and_eq_true, decide_eq_true_eq, beq_iff_eq] at hcovers
  obtain ⟨⟨hfirst, hlast⟩, hstep⟩ := hcovers
  obtain ⟨hpos, -, hdotted, hsigma⟩ := caseRuns_end run hrun
  refine settled_of_forall ?_ ?_ fun q hq => ?_
  · intro he
    rw [he] at hnat
    have hI : 'İ'.toNat = 0x130 := rfl
    omega
  · intro he
    rw [he] at hnat
    have hS : 'Σ'.toNat = 0x3A3 := rfl
    omega
  · generalize (Char.ofNat (c.toNat + run.shift).toNat).toNat = n at hnat
    rw [Bool.eq_false_iff]
    intro hagain
    simp only [CaseRun.covers, Bool.and_eq_true, decide_eq_true_eq, beq_iff_eq] at hagain
    obtain ⟨⟨hqfirst, hqlast⟩, hqstep⟩ := hagain
    have hclears := List.all_eq_true.1 (List.all_eq_true.1 caseRuns_clear run hrun) q hq
    simp only [CaseRun.clears, Bool.or_eq_true, Bool.and_eq_true, Nat.blt_eq, beq_iff_eq] at hclears
    rcases hclears with (hbelow | habove) | ⟨⟨htwo, hone⟩, hodd⟩
    · omega
    · omega
    · rw [htwo] at hqstep
      rcases hone with hone | hone
      · rw [hone] at hstep
        omega
      · omega

theorem settled_lowerChar {c : Char} (hc : c ≠ 'Σ') : ∀ d ∈ lowerChar c, Settled d := by
  intro d hd
  unfold lowerChar at hd
  split at hd
  · rcases List.mem_cons.1 hd with rfl | hd
    · exact ⟨by decide, by decide +kernel⟩
    · rw [List.mem_singleton.1 hd]
      exact ⟨by decide, by decide +kernel⟩
  rename_i hdotted
  split at hd
  · rename_i run hfind
    have hcovers := List.find?_some hfind
    rw [List.mem_singleton.1 hd]
    exact settled_of_covers (List.mem_of_find?_eq_some hfind) hcovers
  · rename_i hnone
    rw [List.mem_singleton.1 hd]
    exact settled_of_forall hdotted hc fun q hq => by simpa using List.find?_eq_none.1 hnone q hq

theorem settled_lowerFrom (before cs : List Char) : ∀ d ∈ lowerFrom before cs, Settled d := by
  induction cs generalizing before with
  | nil => exact fun _ hd => absurd hd List.not_mem_nil
  | cons c cs ih =>
    intro d hd
    rcases List.mem_append.1 hd with hd | hd
    · split at hd
      · rw [List.mem_singleton.1 hd]
        split <;> exact ⟨by decide, by decide +kernel⟩
      · rename_i hc
        exact settled_lowerChar hc d hd
    · exact ih _ d hd

theorem lowerFrom_of_settled {cs : List Char} (h : ∀ c ∈ cs, Settled c) (before : List Char) :
    lowerFrom before cs = cs := by
  induction cs generalizing before with
  | nil => rfl
  | cons c cs ih =>
    obtain ⟨⟨hsigma, hc⟩, hcs⟩ := List.forall_mem_cons.1 h
    rw [lowerFrom, if_neg hsigma, hc, ih hcs]
    rfl

theorem toLower_of_capital {c d : Char} (hfirst : 0x41 ≤ c.toNat) (hlast : c.toNat ≤ 0x5A)
    (h : d.toNat = c.toNat + 32) : c.toLower = d := by
  unfold Char.toLower
  rw [dif_pos ⟨hfirst, hlast⟩]
  apply Char.ext
  apply UInt32.toNat_inj.1
  change (c.val + 32).toNat = d.toNat
  rw [UInt32.toNat_add, h]
  change (c.toNat + 32) % _ = _
  omega

theorem toLower_of_not_capital {c : Char} (h : ¬(0x41 ≤ c.toNat ∧ c.toNat ≤ 0x5A)) : c.toLower = c :=
  dif_neg h

/-- Characters of ASCII that are the lowercase form of themselves and of their ASCII capitals only.
The dotted capital I and the Kelvin sign, which are not in ASCII, become others. -/
def Plain (d : Char) : Prop := d.toNat < 0x80 ∧ d ≠ 'i' ∧ d ≠ 'k'

instance (d : Char) : Decidable (Plain d) := by unfold Plain; infer_instance

theorem of_lowerChar_eq_cons {c d : Char} {more : List Char} (h : lowerChar c = d :: more)
    (hd : Plain d) : more = [] ∧ c.toLower = d := by
  obtain ⟨hascii, hi, hk⟩ := hd
  unfold lowerChar at h
  split at h
  · cases h
    exact absurd rfl hi
  split at h
  · rename_i run hfind
    have hrun := List.mem_of_find?_eq_some hfind
    have hcovers := List.find?_some hfind
    have hnat := toNat_lowerChar hrun hcovers
    simp only [CaseRun.covers, Bool.and_eq_true, decide_eq_true_eq] at hcovers
    obtain ⟨⟨hfirst, hlast⟩, -⟩ := hcovers
    rw [List.cons.injEq] at h
    rw [h.1] at hnat
    refine ⟨h.2.symm, ?_⟩
    rcases caseRuns_ascii run hrun with ⟨hA, hZ, hshift⟩ | hbeyond | ⟨hone, hkelvin⟩
    · exact toLower_of_capital (by omega) (by omega) (by omega)
    · omega
    · have hd : d.toNat = 'k'.toNat := by
        have : 'k'.toNat = 0x6B := rfl
        omega
      exact absurd (Char.toNat_inj.1 hd) hk
  · rename_i hnone
    cases h
    refine ⟨rfl, toLower_of_not_capital fun hcapital => ?_⟩
    refine List.find?_eq_none.1 hnone ⟨0x41, 0x5A, 1, 32⟩ List.mem_cons_self ?_
    simp [CaseRun.covers, hcapital, Nat.mod_one]

theorem lowerChar_ne_nil (c : Char) : lowerChar c ≠ [] := by
  unfold lowerChar
  split
  · simp
  · split <;> simp

theorem lowerFrom_eq_nil_iff {before cs : List Char} : lowerFrom before cs = [] ↔ cs = [] := by
  cases cs with
  | nil => exact iff_of_true rfl rfl
  | cons c cs =>
    rw [lowerFrom]
    refine iff_of_false (fun h => ?_) (by simp)
    have hfirst := (List.append_eq_nil_iff.1 h).1
    split at hfirst
    · cases hfirst
    · exact lowerChar_ne_nil c hfirst

theorem lowerFrom_cons_of_isLower {c : Char} (hc : IsLower c) (before cs : List Char) :
    lowerFrom before (c :: cs) = c :: lowerFrom (c :: before) cs := by
  have hsigma : c ≠ 'Σ' := by
    rintro rfl
    exact absurd hc.1 (by decide)
  rw [lowerFrom, if_neg hsigma, lowerChar_of_isLower hc]
  rfl

theorem mem_lowerFrom {c : Char} {cs : List Char} (h : IsLower c) (hc : c ∈ cs) (before : List Char) :
    c ∈ lowerFrom before cs := by
  induction cs generalizing before with
  | nil => cases hc
  | cons d cs ih =>
    rcases List.mem_cons.1 hc with rfl | hcs
    · rw [lowerFrom_cons_of_isLower h]
      exact List.mem_cons_self
    · exact List.mem_append_right _ (ih hcs _)

theorem of_lowerFrom_eq_cons {before cs ds : List Char} {d : Char} (h : lowerFrom before cs = d :: ds)
    (hd : Plain d) : ∃ c rest, cs = c :: rest ∧ c.toLower = d ∧ lowerFrom (c :: before) rest = ds := by
  cases cs with
  | nil => cases h
  | cons c rest =>
    rw [lowerFrom] at h
    split at h
    · rw [List.singleton_append, List.cons.injEq] at h
      have hsigma : ¬Plain (if meetsCased before && !meetsCased rest then 'ς' else 'σ') := by
        split <;> decide
      exact absurd hd (h.1 ▸ hsigma)
    · obtain ⟨first, more, hlower⟩ := List.exists_cons_of_ne_nil (lowerChar_ne_nil c)
      rw [hlower, List.cons_append, List.cons.injEq] at h
      obtain ⟨rfl, hds⟩ := h
      obtain ⟨rfl, hc⟩ := of_lowerChar_eq_cons hlower hd
      exact ⟨c, rest, rfl, hc, hds⟩

theorem of_toLower_eq {c d : Char} (h : c.toLower = d) :
    c = d ∨ c = Char.ofNat (d.toNat - 32) ∧ 0x61 ≤ d.toNat ∧ d.toNat ≤ 0x7A := by
  by_cases hcapital : 0x41 ≤ c.toNat ∧ c.toNat ≤ 0x5A
  · have hsmall : (Char.ofNat (c.toNat + 32)).toNat = c.toNat + 32 := by
      rw [Char.ofNat, dif_pos (by unfold Nat.isValidChar; omega)]
      rfl
    rw [toLower_of_capital hcapital.1 hcapital.2 hsmall] at h
    rw [← h, hsmall, Nat.add_sub_cancel, Char.ofNat_toNat]
    exact .inr ⟨rfl, by omega⟩
  · rw [toLower_of_not_capital hcapital] at h
    exact .inl h

/-- A mark is no letter: it is the lowercase form of itself only. -/
structure IsMark (d : Char) : Prop where
  plain : Plain d
  lower : IsLower d
  noLetter : ¬(0x61 ≤ d.toNat ∧ d.toNat ≤ 0x7A)

theorem lowerFrom_eq_mark_iff {before cs ds : List Char} {d : Char} (hd : IsMark d) :
    lowerFrom before cs = d :: ds ↔ ∃ rest, cs = d :: rest ∧ lowerFrom (d :: before) rest = ds := by
  constructor
  · intro h
    obtain ⟨c, rest, rfl, hc, hrest⟩ := of_lowerFrom_eq_cons h hd.plain
    obtain rfl := (of_toLower_eq hc).resolve_right fun h => hd.noLetter h.2
    exact ⟨rest, rfl, hrest⟩
  · rintro ⟨rest, rfl, rfl⟩
    exact lowerFrom_cons_of_isLower hd.lower before rest

theorem atComment_lowerFrom (before cs : List Char) : atComment (lowerFrom before cs) = atComment cs := by
  have hslash : IsMark '/' := ⟨by decide, by decide, by decide⟩
  rw [Bool.eq_iff_iff, atComment_iff, atComment_iff]
  constructor
  · rintro ⟨ds, h⟩
    obtain ⟨rest, rfl, hrest⟩ := (lowerFrom_eq_mark_iff hslash).1 h
    obtain ⟨more, rfl, -⟩ := (lowerFrom_eq_mark_iff hslash).1 hrest
    exact ⟨more, rfl⟩
  · rintro ⟨rest, rfl⟩
    rw [lowerFrom_cons_of_isLower hslash.lower, lowerFrom_cons_of_isLower hslash.lower]
    exact ⟨_, rfl⟩

theorem noBrace_lowerFrom_iff {before cs : List Char} :
    (∀ c ∈ lowerFrom before cs, ¬IsBrace c) ↔ ∀ c ∈ cs, ¬IsBrace c := by
  refine ⟨fun h => ?_, fun h => lowerFrom_noBrace h before⟩
  induction cs generalizing before with
  | nil => simp
  | cons c cs ih =>
    rw [List.forall_mem_cons]
    rw [lowerFrom, List.forall_mem_append] at h
    refine ⟨fun hc => ?_, ih h.2⟩
    have hlower : IsLower c := by rcases hc with rfl | rfl <;> decide
    have hsigma : c ≠ 'Σ' := by rcases hc with rfl | rfl <;> decide
    rw [if_neg hsigma, lowerChar_of_isLower hlower] at h
    exact h.1 c (List.mem_singleton_self c) hc

/-- Case rules look back as far as a character that they neither ignore nor regard as a letter. -/
theorem meetsCased_append {c : Char} (hignorable : isCaseIgnorable c = false)
    (hcased : inRanges casedRanges c = false) (before more : List Char) :
    meetsCased (before ++ c :: more) = meetsCased before := by
  induction before with
  | nil => simp [meetsCased, hignorable, hcased]
  | cons d before ih =>
    by_cases hd : isCaseIgnorable d = true
    · simpa [meetsCased, List.dropWhile_cons_of_pos hd] using ih
    · simp [meetsCased, hd]

theorem lowerFrom_append_before {c : Char} (hignorable : isCaseIgnorable c = false)
    (hcased : inRanges casedRanges c = false) (before more cs : List Char) :
    lowerFrom (before ++ c :: more) cs = lowerFrom before cs := by
  induction cs generalizing before with
  | nil => rfl
  | cons d cs ih =>
    rw [lowerFrom, lowerFrom, meetsCased_append hignorable hcased, ← List.cons_append, ih]

theorem lowercase_ofList (cs : List Char) : lowercase (String.ofList cs) = String.ofList (lowerFrom [] cs) := by
  rw [lowercase, String.toList_ofList]

/-- The marker of a label stays before its name. -/
theorem lowercase_marked_iff {word : List Char} {name : String} :
    lowercase (String.ofList word) = ">>" ++ name ↔
      ∃ rest, word = '>' :: '>' :: rest ∧ lowercase (String.ofList rest) = name := by
  have hmark : IsMark '>' := ⟨by decide, by decide, by decide⟩
  have hbefore : ∀ rest, lowerFrom ['>', '>'] rest = lowerFrom [] rest := fun rest =>
    lowerFrom_append_before (by decide +kernel) (by decide +kernel) [] ['>'] rest
  have hname : ">>" ++ name = String.ofList ('>' :: '>' :: name.toList) := by
    rw [← String.toList_inj]
    simp
  rw [lowercase_ofList, hname, String.ofList_inj, lowerFrom_eq_mark_iff hmark]
  simp only [lowerFrom_eq_mark_iff hmark, hbefore, lowercase_ofList, ← String.toList_inj, String.toList_ofList]
  constructor
  · rintro ⟨_, rfl, rest, rfl, hrest⟩
    exact ⟨rest, rfl, hrest⟩
  · rintro ⟨rest, rfl, hrest⟩
    exact ⟨_, rfl, rest, rfl, hrest⟩

theorem sameAsciiCaseless_on_iff {word : List Char} :
    sameAsciiCaseless (String.ofList word) "on" = true ↔ word ∈ ["on".toList, "oN".toList, "On".toList, "ON".toList] := by
  have hascii : sameAsciiCaseless (String.ofList word) "on" = true ↔ word.map Char.toLower = ['o', 'n'] := by
    rw [sameAsciiCaseless, beq_iff_eq, ← String.toList_inj]
    simp [asciiLowercase]
  rw [hascii]
  constructor
  · intro h
    obtain ⟨c, rest, rfl, hc, hrest⟩ := List.map_eq_cons_iff.1 h
    obtain ⟨d, rest, rfl, hd, hnil⟩ := List.map_eq_cons_iff.1 hrest
    rw [List.map_eq_nil_iff] at hnil
    subst hnil
    replace hc : c = 'o' ∨ c = 'O' := (of_toLower_eq hc).imp_right (·.1)
    replace hd : d = 'n' ∨ d = 'N' := (of_toLower_eq hd).imp_right (·.1)
    rcases hc with rfl | rfl <;> rcases hd with rfl | rfl <;> decide
  · intro h
    clear hascii
    revert word
    decide

/-- The word `on` has no other forms than those that ASCII has. -/
theorem lowercase_on_iff {word : List Char} :
    lowercase (String.ofList word) = "on" ↔ sameAsciiCaseless (String.ofList word) "on" = true := by
  have hlower : lowercase (String.ofList word) = "on" ↔ lowerFrom [] word = ['o', 'n'] := by
    rw [lowercase_ofList, ← String.toList_inj, String.toList_ofList]
    rfl
  rw [hlower]
  constructor
  · intro h
    obtain ⟨c, rest, rfl, hc, hrest⟩ := of_lowerFrom_eq_cons h (by decide)
    obtain ⟨d, rest, rfl, hd, hnil⟩ := of_lowerFrom_eq_cons hrest (by decide)
    rw [sameAsciiCaseless, beq_iff_eq, ← String.toList_inj, lowerFrom_eq_nil_iff.1 hnil]
    simp [asciiLowercase, hc, hd]
  · rw [sameAsciiCaseless_on_iff]
    clear hlower
    revert word
    decide +kernel

end Text

end EntityScript
