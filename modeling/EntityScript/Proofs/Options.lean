import EntityScript.Config
import EntityScript.Proofs.Line

/-! Options files, line by line. The first malformed line refuses the file, with its number. Without one,
every option is settled by the last line of its key, whatever stood above it, and has its default where no
line names it. So lines of different keys may change places, and lines that name no option may be put in
anywhere. -/

namespace EntityScript

namespace OptionLine

/-- The line is not blank, is no comment, and has no equals sign. -/
def Malformed (line : List Char) : Prop :=
  Text.trim line ≠ [] ∧ (Text.trim line).head? ≠ some '#' ∧ '=' ∉ Text.trim line

/-- The line has this key before its first equals sign, and this value behind it. -/
def Gives (line : List Char) (key value : String) : Prop :=
  ∃ before after, Text.trim line = before ++ '=' :: after ∧ '=' ∉ before ∧
    key = String.ofList (Text.trim before) ∧ value = String.ofList (Text.trim after)

def Names (line : List Char) (key : String) : Prop := ∃ value, Gives line key value

variable {line : List Char} {key value text : String}

theorem head?_trim {c : Char} (hc : Text.isBlank c = false) (cs : List Char) :
    (Text.trim (c :: cs)).head? = some c := by
  have hstart : Text.trimStart (c :: cs) = c :: cs := List.dropWhile_cons_of_neg (by simp [hc])
  rw [Text.trim, hstart, List.reverse_cons, Text.trimStart, List.dropWhile_append]
  split
  · simp [hc]
  · simp

/-- What a comment has before an equals sign is a comment too. -/
theorem head?_of_gives (h : Gives line key value) (hline : (Text.trim line).head? = some '#') :
    key.toList.head? = some '#' := by
  obtain ⟨before, after, htrim, -, rfl, -⟩ := h
  rw [htrim] at hline
  cases before with
  | nil => simp at hline
  | cons c before =>
    obtain rfl : c = '#' := by simpa using hline
    rw [String.toList_ofList]
    exact head?_trim (by decide) before

theorem dropWhile_bne_eq_nil_iff {c : Char} {cs : List Char} : cs.dropWhile (· != c) = [] ↔ c ∉ cs := by
  rw [List.dropWhile_eq_nil_iff]
  constructor
  · intro h hc
    simpa using h c hc
  · intro h d hd
    simpa using ne_of_mem_of_not_mem hd h

theorem read_eq_malformed_iff :
    read line = .malformed text ↔ Malformed line ∧ text = String.ofList (Text.trim line) := by
  unfold read Malformed
  dsimp only
  split
  · rename_i hskip
    simp only [Bool.or_eq_true, List.isEmpty_iff, beq_iff_eq] at hskip
    simp only [reduceCtorEq, false_iff]
    rintro ⟨⟨hne, hhead, -⟩, -⟩
    exact hskip.elim hne hhead
  · rename_i hskip
    simp only [Bool.or_eq_true, List.isEmpty_iff, beq_iff_eq, not_or] at hskip
    split
    · rename_i hdrop
      simp [hskip, dropWhile_bne_eq_nil_iff.1 hdrop, eq_comm]
    · rename_i hdrop
      have hmem : '=' ∈ Text.trim line := by
        by_contra hmem
        rw [dropWhile_bne_eq_nil_iff.2 hmem] at hdrop
        cases hdrop
      simp [hmem]

theorem read_eq_setting_iff :
    read line = .setting key value ↔ (Text.trim line).head? ≠ some '#' ∧ Gives line key value := by
  unfold read Gives
  dsimp only
  split
  · rename_i hskip
    simp only [Bool.or_eq_true, List.isEmpty_iff, beq_iff_eq] at hskip
    simp only [reduceCtorEq, false_iff]
    rintro ⟨hhead, before, after, htrim, -⟩
    rcases hskip with hnil | hcomment
    · simp [hnil] at htrim
    · exact hhead hcomment
  · rename_i hskip
    simp only [Bool.or_eq_true, List.isEmpty_iff, beq_iff_eq, not_or] at hskip
    split
    · rename_i hdrop
      simp only [reduceCtorEq, false_iff]
      rintro ⟨-, before, after, htrim, -⟩
      exact dropWhile_bne_eq_nil_iff.1 hdrop (by simp [htrim])
    · rename_i c after hdrop
      obtain rfl := Reading.eq_of_dropWhile_ne hdrop
      rw [OptionLine.setting.injEq]
      constructor
      · rintro ⟨rfl, rfl⟩
        refine ⟨hskip.2, _, after, ?_, ?_, rfl, rfl⟩
        · rw [← hdrop, List.takeWhile_append_dropWhile]
        · intro hmem
          simpa using List.mem_takeWhile_imp hmem
      · rintro ⟨-, before, after', htrim, hbefore, rfl, rfl⟩
        have hpass : ∀ c ∈ before, (c != '=') = true := fun c hc => by
          simpa using ne_of_mem_of_not_mem hc hbefore
        have hstop : ∀ c ∈ ('=' :: after').head?, (c != '=') = false := by simp
        obtain ⟨htake, hafter⟩ := Reading.takeWhile_append_stop hpass hstop
        rw [← htrim] at htake hafter
        rw [hdrop, List.cons.injEq] at hafter
        rw [htake, hafter.2]
        exact ⟨rfl, rfl⟩

def valueOf? (key : String) (line : List Char) : Option String :=
  match read line with
  | .setting name value => if name = key then some value else none
  | _ => none

def lastValue? (key : String) : List (List Char) → Option String
  | [] => none
  | line :: below => (lastValue? key below).or (valueOf? key line)

/-- A setting names one key. -/
theorem names_iff_of_read {name : String} (h : read line = .setting name value) : Names line key ↔ key = name := by
  constructor
  · rintro ⟨text, htext⟩
    have hread := read_eq_setting_iff.2 ⟨(read_eq_setting_iff.1 h).1, htext⟩
    rw [h, OptionLine.setting.injEq] at hread
    exact hread.1.symm
  · rintro rfl
    exact ⟨value, (read_eq_setting_iff.1 h).2⟩

theorem read_of_gives (hkey : key.toList.head? ≠ some '#') (h : Gives line key value) :
    read line = .setting key value :=
  read_eq_setting_iff.2 ⟨fun hhead => hkey (head?_of_gives h hhead), h⟩

theorem valueOf?_eq_some_iff (hkey : key.toList.head? ≠ some '#') :
    valueOf? key line = some value ↔ Gives line key value := by
  have hread : valueOf? key line = some value ↔ read line = .setting key value := by
    unfold valueOf?
    cases read line with
    | skipped => simp
    | malformed => simp
    | setting name found => simp
  rw [hread]
  exact ⟨fun h => (read_eq_setting_iff.1 h).2, read_of_gives hkey⟩

theorem valueOf?_eq_none_iff (hkey : key.toList.head? ≠ some '#') : valueOf? key line = none ↔ ¬Names line key := by
  rw [Option.eq_none_iff_forall_ne_some, Names, not_exists]
  simp only [ne_eq, valueOf?_eq_some_iff hkey]

theorem lastValue?_eq_none_iff (hkey : key.toList.head? ≠ some '#') {lines : List (List Char)} :
    lastValue? key lines = none ↔ ∀ line ∈ lines, ¬Names line key := by
  induction lines with
  | nil => simp [lastValue?]
  | cons line below ih =>
    rw [lastValue?, Option.or_eq_none_iff, ih, valueOf?_eq_none_iff hkey, List.forall_mem_cons, and_comm]

theorem lastValue?_eq_some_iff (hkey : key.toList.head? ≠ some '#') {lines : List (List Char)} :
    lastValue? key lines = some value ↔
      ∃ above line below, lines = above ++ line :: below ∧ Gives line key value ∧ ∀ l ∈ below, ¬Names l key := by
  induction lines with
  | nil => simp [lastValue?]
  | cons first lines ih =>
    rw [lastValue?, Option.or_eq_some_iff, ih, lastValue?_eq_none_iff hkey, valueOf?_eq_some_iff hkey]
    constructor
    · rintro (⟨above, line, below, rfl, hline, hbelow⟩ | ⟨hbelow, hline⟩)
      · exact ⟨first :: above, line, below, rfl, hline, hbelow⟩
      · exact ⟨[], first, lines, rfl, hline, hbelow⟩
    · rintro ⟨above, line, below, hlines, hline, hbelow⟩
      cases above with
      | nil =>
        obtain ⟨rfl, rfl⟩ := List.cons.inj hlines
        exact .inr ⟨hbelow, hline⟩
      | cons top above =>
        obtain ⟨rfl, rfl⟩ := List.cons.inj hlines
        exact .inl ⟨above, line, below, rfl, hline, hbelow⟩

end OptionLine

open OptionLine

/-- A switch is one of two texts. -/
theorem readSwitch?_eq (text : String) :
    readSwitch? text = if text = "true" then some true else if text = "false" then some false else none := by
  unfold readSwitch?
  split <;> simp_all

/-- An option: the key that names it, where its value is kept, and how the value is read. -/
structure ConfigOption (α : Type) where
  key : String
  value : Config → α
  read? : String → Option α
  /-- A key is not taken for a comment. -/
  key_head : key.toList.head? ≠ some '#' := by decide
  /-- A setting of this key changes the option, and no other setting does. -/
  value_apply : ∀ (c : Config) (name text : String), value (c.apply name text) =
    if name = key then (read? text).getD (value {}) else value c := by
      intro c name text
      unfold Config.apply
      split <;> simp_all

namespace ConfigOption

def timerPoolSize : ConfigOption Nat where
  key := "timer_pool_size"
  value := Config.timerPoolSize
  read? := Number.parseUnsigned?

def maxGlobals : ConfigOption Nat where
  key := "max_global_variables"
  value := Config.maxGlobals
  read? := Number.parseUnsigned?

def maxLocals : ConfigOption Nat where
  key := "max_local_variables"
  value := Config.maxLocals
  read? := Number.parseUnsigned?

def maxCallDepth : ConfigOption Nat where
  key := "max_call_depth"
  value := Config.maxCallDepth
  read? := Number.parseUnsigned?

def maxSteps : ConfigOption Nat where
  key := "max_steps_per_event"
  value := Config.maxSteps
  read? := Number.parseUnsigned?

def legacyOperators : ConfigOption Bool where
  key := "legacy_operator_defaults"
  value := Config.legacyOperators
  read? := fun text => if text = "true" then some true else if text = "false" then some false else none
  value_apply := by
    intro c name text
    rw [← readSwitch?_eq]
    unfold Config.apply
    split <;> simp_all

/-- No seed is a value too: it is the default. -/
def seed : ConfigOption (Option Nat) where
  key := "rng_seed"
  value := Config.seed
  read? := fun text => (Number.parseUnsigned? text).map some
  value_apply := by
    intro c name text
    unfold Config.apply
    split <;> simp_all
    cases Number.parseUnsigned? text <;> rfl

def logLevel : ConfigOption String where
  key := "log_level"
  value := Config.logLevel
  read? := fun text => some (Text.lowercase text)

def keys : List String :=
  [timerPoolSize.key, maxGlobals.key, maxLocals.key, maxCallDepth.key, maxSteps.key, legacyOperators.key,
    seed.key, logLevel.key]

variable {α : Type} (o : ConfigOption α)

def default : α := o.value {}

/-- What the lines make of the option. The last line of its key counts, even if its value does not read. -/
inductive SettledBy (lines : List (List Char)) : α → Prop
  | last {above below : List (List Char)} {line : List Char} {text : String} (hlines : lines = above ++ line :: below)
    (hline : Gives line o.key text) (hbelow : ∀ l ∈ below, ¬Names l o.key) :
    SettledBy lines ((o.read? text).getD o.default)
  | unnamed (h : ∀ line ∈ lines, ¬Names line o.key) : SettledBy lines o.default

/-- The value of the option when this text is given for it, or none. -/
def ofText? (before : α) (text? : Option String) : α := text?.elim before fun text => (o.read? text).getD o.default

variable {o} {lines : List (List Char)} {a : α}

theorem ofText?_or (a : α) (upper lower : Option String) :
    o.ofText? (o.ofText? a upper) lower = o.ofText? a (lower.or upper) := by
  cases lower <;> rfl

theorem settledBy_iff : o.SettledBy lines a ↔ a = o.ofText? o.default (lastValue? o.key lines) := by
  constructor
  · intro h
    cases h with
    | last hlines hline hbelow =>
      rw [(lastValue?_eq_some_iff o.key_head).2 ⟨_, _, _, hlines, hline, hbelow⟩]
      rfl
    | unnamed h =>
      rw [(lastValue?_eq_none_iff o.key_head).2 h]
      rfl
  · rintro rfl
    cases hlast : lastValue? o.key lines with
    | none => exact .unnamed ((lastValue?_eq_none_iff o.key_head).1 hlast)
    | some text =>
      obtain ⟨above, line, below, hlines, hline, hbelow⟩ := (lastValue?_eq_some_iff o.key_head).1 hlast
      exact .last hlines hline hbelow

end ConfigOption

namespace Config

structure SettledBy (c : Config) (lines : List (List Char)) : Prop where
  timerPoolSize : ConfigOption.timerPoolSize.SettledBy lines c.timerPoolSize
  maxGlobals : ConfigOption.maxGlobals.SettledBy lines c.maxGlobals
  maxLocals : ConfigOption.maxLocals.SettledBy lines c.maxLocals
  maxCallDepth : ConfigOption.maxCallDepth.SettledBy lines c.maxCallDepth
  maxSteps : ConfigOption.maxSteps.SettledBy lines c.maxSteps
  legacyOperators : ConfigOption.legacyOperators.SettledBy lines c.legacyOperators
  seed : ConfigOption.seed.SettledBy lines c.seed
  logLevel : ConfigOption.logLevel.SettledBy lines c.logLevel

/-- The error is about the first malformed line, the first of the lines having this number. -/
def Refuses (number : Nat) (lines : List (List Char)) (e : ConfigError) : Prop :=
  ∃ above line below, lines = above ++ line :: below ∧ (∀ l ∈ above, ¬Malformed l) ∧ Malformed line ∧
    e = ⟨number + above.length, String.ofList (Text.trim line)⟩

variable {c d : Config} {number : Nat} {line : List Char} {lines more : List (List Char)} {e : ConfigError}

theorem applyLines_of_malformed (h : Malformed line) :
    applyLines c number (line :: lines) = .error ⟨number, String.ofList (Text.trim line)⟩ := by
  rw [applyLines, read_eq_malformed_iff.2 ⟨h, rfl⟩]

/-- A line that is not malformed changes the option it names, and the lines below go on from there. -/
theorem applyLines_of_wellFormed (h : ¬Malformed line) (c : Config) :
    ∃ d, (∀ number lines, applyLines c number (line :: lines) = applyLines d (number + 1) lines) ∧
      ∀ {α : Type} (o : ConfigOption α), o.value d = o.ofText? (o.value c) (valueOf? o.key line) := by
  cases hread : OptionLine.read line with
  | skipped =>
    refine ⟨c, fun number lines => ?_, fun o => ?_⟩
    · rw [applyLines, hread]
    · rw [valueOf?, hread]
      rfl
  | setting name text =>
    refine ⟨c.apply name text, fun number lines => ?_, fun o => ?_⟩
    · rw [applyLines, hread]
    · rw [valueOf?, hread, o.value_apply]
      dsimp only
      split
      · rfl
      · rfl
  | malformed text => exact absurd (read_eq_malformed_iff.1 hread).1 h

theorem refuses_of_malformed (h : Malformed line) :
    Refuses number (line :: lines) e ↔ e = ⟨number, String.ofList (Text.trim line)⟩ := by
  constructor
  · rintro ⟨above, first, below, hlines, habove, -, rfl⟩
    cases above with
    | nil =>
      obtain ⟨rfl, -⟩ := List.cons.inj hlines
      rfl
    | cons top above =>
      obtain ⟨rfl, -⟩ := List.cons.inj hlines
      exact absurd h (habove line List.mem_cons_self)
  · rintro rfl
    exact ⟨[], line, lines, rfl, by simp, h, rfl⟩

theorem refuses_of_wellFormed (h : ¬Malformed line) :
    Refuses number (line :: lines) e ↔ Refuses (number + 1) lines e := by
  constructor
  · rintro ⟨above, first, below, hlines, habove, hfirst, rfl⟩
    cases above with
    | nil =>
      obtain ⟨rfl, -⟩ := List.cons.inj hlines
      exact absurd hfirst h
    | cons top above =>
      obtain ⟨rfl, rfl⟩ := List.cons.inj hlines
      obtain ⟨-, habove⟩ := List.forall_mem_cons.1 habove
      refine ⟨above, first, below, rfl, habove, hfirst, ?_⟩
      rw [List.length_cons, Nat.add_right_comm, Nat.add_assoc]
  · rintro ⟨above, first, below, rfl, habove, hfirst, rfl⟩
    refine ⟨line :: above, first, below, rfl, List.forall_mem_cons.2 ⟨h, habove⟩, hfirst, ?_⟩
    rw [List.length_cons, Nat.add_right_comm, Nat.add_assoc]

theorem applyLines_eq_error_iff : applyLines c number lines = .error e ↔ Refuses number lines e := by
  induction lines generalizing c number with
  | nil => simp [applyLines, Refuses]
  | cons line lines ih =>
    by_cases h : Malformed line
    · rw [applyLines_of_malformed h, refuses_of_malformed h, Except.error.injEq, eq_comm]
    · obtain ⟨d, hstep, -⟩ := applyLines_of_wellFormed h c
      rw [hstep, refuses_of_wellFormed h, ih]

theorem exists_applyLines (h : ∀ line ∈ lines, ¬Malformed line) (c : Config) (number : Nat) :
    ∃ d, applyLines c number lines = .ok d := by
  cases hrun : applyLines c number lines with
  | ok d => exact ⟨d, rfl⟩
  | error e =>
    obtain ⟨above, line, below, rfl, -, hline, -⟩ := applyLines_eq_error_iff.1 hrun
    exact absurd hline (h line (by simp))

/-- By induction on the lines: what a line makes of an option stays until a line below names it again. -/
theorem of_applyLines (h : applyLines c number lines = .ok d) :
    (∀ line ∈ lines, ¬Malformed line) ∧
      ∀ {α : Type} (o : ConfigOption α), o.value d = o.ofText? (o.value c) (lastValue? o.key lines) := by
  induction lines generalizing c number with
  | nil =>
    cases h
    exact ⟨by simp, fun o => rfl⟩
  | cons line lines ih =>
    by_cases hline : Malformed line
    · rw [applyLines_of_malformed hline] at h
      cases h
    · obtain ⟨mid, hstep, hvalue⟩ := applyLines_of_wellFormed hline c
      rw [hstep] at h
      obtain ⟨hlines, hlast⟩ := ih h
      refine ⟨List.forall_mem_cons.2 ⟨hline, hlines⟩, fun o => ?_⟩
      rw [hlast, hvalue, lastValue?, ConfigOption.ofText?_or]

theorem settledBy_unique (hc : c.SettledBy lines) (hd : d.SettledBy lines) : c = d := by
  have hsame : ∀ {α : Type} {o : ConfigOption α} {a b : α}, o.SettledBy lines a → o.SettledBy lines b → a = b :=
    fun ha hb => (ConfigOption.settledBy_iff.1 ha).trans (ConfigOption.settledBy_iff.1 hb).symm
  obtain ⟨h₁, h₂, h₃, h₄, h₅, h₆, h₇, h₈⟩ := hc
  obtain ⟨k₁, k₂, k₃, k₄, k₅, k₆, k₇, k₈⟩ := hd
  cases c
  cases d
  rw [Config.mk.injEq]
  exact ⟨hsame h₁ k₁, hsame h₂ k₂, hsame h₃ k₃, hsame h₄ k₄, hsame h₅ k₅, hsame h₆ k₆, hsame h₇ k₇, hsame h₈ k₈⟩

theorem applyLines_eq_ok_iff :
    applyLines {} number lines = .ok c ↔ (∀ line ∈ lines, ¬Malformed line) ∧ c.SettledBy lines := by
  have hsettled : ∀ {d : Config}, applyLines {} number lines = .ok d → d.SettledBy lines := by
    intro d h
    obtain ⟨-, hlast⟩ := of_applyLines h
    have hoption : ∀ {α : Type} (o : ConfigOption α), o.SettledBy lines (o.value d) :=
      fun o => ConfigOption.settledBy_iff.2 (hlast o)
    exact ⟨hoption .timerPoolSize, hoption .maxGlobals, hoption .maxLocals, hoption .maxCallDepth,
      hoption .maxSteps, hoption .legacyOperators, hoption .seed, hoption .logLevel⟩
  constructor
  · intro h
    exact ⟨(of_applyLines h).1, hsettled h⟩
  · rintro ⟨hlines, hc⟩
    obtain ⟨d, hd⟩ := exists_applyLines hlines {} number
    rw [hd, settledBy_unique (hsettled hd) hc]

end Config

namespace OptionLine

/-- A line that names no option. -/
inductive Idle (line : List Char) : Prop
  | blank (h : Text.trim line = [])
  | comment (h : (Text.trim line).head? = some '#')
  | unknown {key value : String} (h : Gives line key value) (hkey : key ∉ ConfigOption.keys)

/-- The same lines once more, in an order in which lines of one option follow each other as before, with lines
put in that name no option. -/
inductive Rearranged : List (List Char) → List (List Char) → Prop
  | nil : Rearranged [] []
  | cons {lines more : List (List Char)} (line : List Char) (h : Rearranged lines more) :
    Rearranged (line :: lines) (line :: more)
  | swapped {first second : List Char} (h : ∀ key ∈ ConfigOption.keys, Names first key → ¬Names second key)
    (lines : List (List Char)) : Rearranged (first :: second :: lines) (second :: first :: lines)
  | inserted {line : List Char} (h : Idle line) (lines : List (List Char)) : Rearranged lines (line :: lines)
  | trans {lines mid more : List (List Char)} (h₁ : Rearranged lines mid) (h₂ : Rearranged mid more) :
    Rearranged lines more

variable {line : List Char} {lines more : List (List Char)} {key : String}

theorem key_head_of_mem (h : key ∈ ConfigOption.keys) : key.toList.head? ≠ some '#' := by
  have hall : ∀ key ∈ ConfigOption.keys, key.toList.head? ≠ some '#' := by decide +kernel
  exact hall key h

theorem Idle.not_malformed (h : Idle line) : ¬Malformed line := by
  rintro ⟨hne, hhead, hmem⟩
  cases h with
  | blank h => exact hne h
  | comment h => exact hhead h
  | unknown h =>
    obtain ⟨before, after, htrim, -⟩ := h
    exact hmem (by simp [htrim])

theorem Idle.valueOf? (h : Idle line) (hkey : key ∈ ConfigOption.keys) : valueOf? key line = none := by
  rw [valueOf?_eq_none_iff (key_head_of_mem hkey)]
  rintro ⟨value, hvalue⟩
  cases h with
  | blank h =>
    obtain ⟨before, after, htrim, -⟩ := hvalue
    simp [h] at htrim
  | comment h => exact key_head_of_mem hkey (head?_of_gives hvalue h)
  | unknown h hunknown =>
    have hread := read_of_gives (key_head_of_mem hkey) hvalue
    exact hunknown ((names_iff_of_read hread).1 ⟨_, h⟩ ▸ hkey)

theorem Rearranged.wellFormed (h : Rearranged lines more) (hlines : ∀ line ∈ lines, ¬Malformed line) :
    ∀ line ∈ more, ¬Malformed line := by
  induction h with
  | nil => exact hlines
  | cons line _ ih =>
    obtain ⟨hline, hlines⟩ := List.forall_mem_cons.1 hlines
    exact List.forall_mem_cons.2 ⟨hline, ih hlines⟩
  | swapped _ lines =>
    simp only [List.forall_mem_cons] at hlines ⊢
    exact ⟨hlines.2.1, hlines.1, hlines.2.2⟩
  | inserted h lines => exact List.forall_mem_cons.2 ⟨h.not_malformed, hlines⟩
  | trans _ _ ih₁ ih₂ => exact ih₂ (ih₁ hlines)

/-- The last line of a key is the last one still, since no other line of the key has passed it. -/
theorem Rearranged.lastValue? (h : Rearranged lines more) (hkey : key ∈ ConfigOption.keys) :
    lastValue? key more = lastValue? key lines := by
  induction h with
  | nil => rfl
  | cons line _ ih => rw [OptionLine.lastValue?, OptionLine.lastValue?, ih]
  | @swapped first second h lines =>
    have hapart : OptionLine.valueOf? key first = none ∨ OptionLine.valueOf? key second = none := by
      rw [valueOf?_eq_none_iff (key_head_of_mem hkey), valueOf?_eq_none_iff (key_head_of_mem hkey)]
      by_cases hfirst : Names first key
      · exact .inr (h key hkey hfirst)
      · exact .inl hfirst
    simp only [OptionLine.lastValue?, Option.or_assoc]
    rcases hapart with hnone | hnone
    · simp [hnone]
    · simp [hnone]
  | inserted h lines => rw [OptionLine.lastValue?, h.valueOf? hkey, Option.or_none]
  | trans _ _ ih₁ ih₂ => exact ih₂.trans ih₁

end OptionLine

namespace Config

theorem SettledBy.rearranged {c : Config} {lines more : List (List Char)} (h : c.SettledBy lines)
    (hmore : Rearranged lines more) : c.SettledBy more := by
  have hoption : ∀ {α : Type} {o : ConfigOption α} {a : α}, o.key ∈ ConfigOption.keys → o.SettledBy lines a →
      o.SettledBy more a := by
    intro α o a hkey ha
    rw [ConfigOption.settledBy_iff, hmore.lastValue? hkey]
    exact ConfigOption.settledBy_iff.1 ha
  obtain ⟨h₁, h₂, h₃, h₄, h₅, h₆, h₇, h₈⟩ := h
  refine ⟨hoption ?_ h₁, hoption ?_ h₂, hoption ?_ h₃, hoption ?_ h₄, hoption ?_ h₅, hoption ?_ h₆, hoption ?_ h₇,
    hoption ?_ h₈⟩
  all_goals simp [ConfigOption.keys]

/-- The text is refused for its first malformed line, with the number of that line. Without one it is accepted,
and every option is settled by the last line of its key. What is accepted stays the same when lines of different
keys change places and lines are put in that name no option. -/
theorem parse_lastLines (text : String) :
    (∀ e, parse text = .error e ↔ Refuses 1 (Text.lines text.toList) e) ∧
      (∀ c, parse text = .ok c ↔
        (∀ line ∈ Text.lines text.toList, ¬Malformed line) ∧ c.SettledBy (Text.lines text.toList)) ∧
      ∀ other c, Rearranged (Text.lines text.toList) (Text.lines other.toList) → parse text = .ok c →
        parse other = .ok c := by
  refine ⟨fun e => applyLines_eq_error_iff, fun c => applyLines_eq_ok_iff, fun other c hother h => ?_⟩
  obtain ⟨hlines, hc⟩ := applyLines_eq_ok_iff.1 h
  exact applyLines_eq_ok_iff.2 ⟨hother.wellFormed hlines, hc.rearranged hother⟩

def limits : String := "timer_pool_size = 8\nrng_seed = 42\ntimer_pool_size = lots\nlog_level = warn"

def limitsAnew : String :=
  "# limits = 1\nrng_seed = 42\n \ntimer_pool_size = 8\ntimer_pool_size = lots\nvolume = 11\nlog_level = warn"

theorem limits_rearranged : Rearranged (Text.lines limits.toList) (Text.lines limitsAnew.toList) := by
  have hlines : Text.lines limits.toList = ["timer_pool_size = 8".toList, "rng_seed = 42".toList,
      "timer_pool_size = lots".toList, "log_level = warn".toList] := by decide +kernel
  have hanew : Text.lines limitsAnew.toList = ["# limits = 1".toList, "rng_seed = 42".toList, " ".toList,
      "timer_pool_size = 8".toList, "timer_pool_size = lots".toList, "volume = 11".toList,
      "log_level = warn".toList] := by decide +kernel
  have hsize : OptionLine.read "timer_pool_size = 8".toList = .setting "timer_pool_size" "8" := by decide +kernel
  have hseed : OptionLine.read "rng_seed = 42".toList = .setting "rng_seed" "42" := by decide +kernel
  have hvolume : OptionLine.read "volume = 11".toList = .setting "volume" "11" := by decide +kernel
  have hapart : ∀ key ∈ ConfigOption.keys, Names "timer_pool_size = 8".toList key →
      ¬Names "rng_seed = 42".toList key := by
    intro key _ hkey
    rw [(names_iff_of_read hsize).1 hkey, names_iff_of_read hseed]
    decide
  rw [hlines, hanew]
  refine .trans (.swapped hapart _) (.trans (.inserted (.comment (by decide +kernel)) _) (.cons _ (.cons _ ?_)))
  refine .trans (.inserted (.blank (by decide +kernel)) _) (.cons _ (.cons _ (.cons _ (.inserted ?_ _))))
  exact .unknown (read_eq_setting_iff.1 hvolume).2 (by decide +kernel)

/-- The value that does not read puts the default in place of the good one above it. -/
theorem parse_lastLines_limits : parse limitsAnew = .ok { seed := some 42, logLevel := "warn" } := by
  have hparse : parse limits = .ok { seed := some 42, logLevel := "warn" } := by decide +kernel
  exact (parse_lastLines limits).2.2 limitsAnew _ limits_rearranged hparse

end Config

end EntityScript
