import EntityScript.Proofs.Braces
import EntityScript.Proofs.Calls
import EntityScript.Proofs.Handlers

/-! Gotos within a block. A run counts the braces that it passes and takes no notice of
those that a goto leaps over, so behind a goto it counts on from the wrong number. It
ends at the brace that closes the block unless gotos have led it outwards, on balance,
by the time it gets there. -/

namespace EntityScript

open Reading

namespace Exec.Effect

variable {table : CommandTable} {word : String} {r s : Run} {outcome : Outcome} {B : Block} {n : Int}

/-- What is neither a jump nor a return goes on in the block and as deep as before. -/
theorem holds (h : Effect table word r outcome s) (hr : B.Holds r.rest n) (hclear : ClearLine r.rest)
    (hjump : outcome ≠ .jumped) (hgo : outcome.isAbort = false) (hempty : r.callDepth = 0) :
    B.Holds s.rest n := by
  cases h with
  | passedOver _ h => exact (hr.onLine hclear (onLine_of_changes h)).1
  | @small _ _ _ t _ _ _ _ h hskip =>
    have hon : OnLine { r with command := word }.rest t.rest := onLine_of_changes h
    have hs := (hr.onLine hclear hon).1
    cases hskip with
    | nothing => exact hs
    | statement =>
      rw [Run.rest_readTo]
      exact hs.skipStatement
    | guarded =>
      rw [Run.rest_readTo]
      exact hs.skipGuarded
  | went | called => exact absurd rfl hjump
  | returned _ hpop =>
    rw [CallStack.pop?_eq_none_iff.2 hempty] at hpop
    cases hpop
  | refused | stuck => cases hgo

theorem calls_eq_of_noCall (h : Effect table word r outcome s)
    (hcall : ∀ name, table.lookup word ≠ some (name, .jump true)) (hgo : outcome.isAbort = false)
    (hempty : r.callDepth = 0) : s.calls = r.calls := by
  refine h.calls_eq (fun name hlookup => absurd hlookup (hcall name)) (fun name hlookup hdone => ?_)
  rw [h.of_stuck hlookup hempty] at hgo
  cases hgo

end Exec.Effect

namespace Loop

variable {table : CommandTable} {B : Block} {n limit : Nat} {d : Int} {l m next start : Loop}
  {word : String} {rest : List Char} {outcome : Outcome}

def AtClose (B : Block) (l : Loop) : Prop := readCommand l.run.rest = ("\x7d", B.after)

/-- How many blocks outwards a command leads. It is a goto that does. -/
def outward (B : Block) (outcome : Outcome) (l next : Loop) : Int :=
  if outcome = .jumped then B.nesting l.run.rest - B.nesting next.run.rest else 0

/-- The loop takes so many steps and does not leave the block; the gotos among them lead `d` blocks
outwards, those that lead inwards taken off. -/
inductive Ranges (table : CommandTable) (B : Block) : Nat → Int → Loop → Loop → Prop
  | refl (l : Loop) : Ranges table B 0 0 l l
  | passed {n : Nat} {d : Int} {l m next : Loop} (h : l.turn = .passed m) (hin : B.Inside m.run.rest)
    (hon : Ranges table B n d m next) : Ranges table B n d l next
  | carried {n : Nat} {d : Int} {l m next : Loop} {word : String} {rest : List Char} {outcome : Outcome}
    (h : l.turn = .met word rest) (hcarry : l.carryOut table word rest = (outcome, m))
    (hgo : outcome.isAbort = false) (hin : B.Inside m.run.rest) (hon : Ranges table B n d m next) :
    Ranges table B (n + 1) (outward B outcome l m + d) l next

/-- A run of at most `limit` steps calls nothing, and its gotos lead to labels of the block. -/
structure Confined (table : CommandTable) (B : Block) (limit : Nat) (start : Loop) : Prop where
  noCall : ∀ n l word rest, Takes table n start l → n < limit → l.turn = .met word rest →
    ∀ name, table.lookup word ≠ some (name, .jump true)
  gotos : ∀ n l word rest next, Takes table n start l → n < limit → l.turn = .met word rest →
    l.carryOut table word rest = (.jumped, next) → B.Inside next.run.rest

/-- A run of at most `limit` steps carries out commands of the block only, and ends if it comes to the
closing brace of the block. -/
structure Stays (table : CommandTable) (B : Block) (limit : Nat) (start : Loop) : Prop where
  commands : ∀ n l word rest, Takes table n start l → n < limit → l.turn = .met word rest →
    B.Inside l.run.rest ∧ B.Inside rest
  ending : ∀ n l, Takes table n start l → n ≤ limit → AtClose B l → l.turn = .ended B.after

/-- Whenever a run of at most `limit` steps comes to the closing brace, its gotos have led at least as
far inwards as outwards. -/
def NetInward (table : CommandTable) (B : Block) (limit : Nat) (start : Loop) : Prop :=
  ∀ n d l, Ranges table B n d start l → n ≤ limit → AtClose B l → d ≤ 0

/-- The loop is in the block, and what it counts differs from how deep it is by `d`. -/
structure Off (B : Block) (d : Int) (l : Loop) : Prop where
  mode : l.mode = .block
  noCall : l.run.callDepth = 0
  inside : B.Inside l.run.rest
  depth : l.depth = B.nesting l.run.rest + d

namespace Off

theorem holds (h : Off B d l) : B.Holds l.run.rest (B.nesting l.run.rest) := ⟨h.inside, rfl⟩

theorem lineOver (h : Off B d l) : ¬l.LineOver := by
  intro hover
  rw [LineOver, h.mode] at hover
  exact absurd hover.1 (by decide)

theorem finds (h : Off B d l) :
    B.Finds (B.nesting l.run.rest) (readCommand l.run.rest).1 (readCommand l.run.rest).2 :=
  h.holds.readCommand

/-- At the closing brace the run ends just if it counts no more than it should. -/
theorem ended_iff (h : Off B d l) (hclose : AtClose B l) : l.turn = .ended B.after ↔ d ≤ 0 := by
  have hnesting : B.nesting l.run.rest = 1 := by
    have hfinds := h.finds
    rw [hclose] at hfinds
    dsimp only at hfinds
    cases hfinds with
    | opened hword => exact absurd hword (by decide)
    | closed _ hrest => exact absurd hrest.1.1.length_le (by simp [Block.close])
    | ended _ _ hone => exact hone
    | command _ hne => exact absurd rfl hne
  have hdepth := h.depth
  rw [hnesting] at hdepth
  rw [AtClose] at hclose
  unfold turn
  rw [hclose]
  dsimp only
  rw [if_neg h.lineOver, if_neg (by decide), if_neg (by decide), if_neg (by decide), if_pos rfl, hdepth]
  constructor
  · intro hturn
    by_contra hd
    rw [if_neg (by omega)] at hturn
    cases hturn
  · intro hd
    rw [if_pos ⟨by omega, h.mode⟩]

/-- Within the block every brace that is passed counts. -/
theorem passed (h : Off B d l) (hturn : l.turn = .passed next) (hin : B.Inside next.run.rest) :
    Off B d next := by
  obtain ⟨hnext, hword⟩ := cases_of_passed hturn
  have hrest : next.run.rest = (readCommand l.run.rest).2 := by rw [run_of_passed hturn, Run.rest_readTo]
  have hfinds := h.finds
  have hdepth := h.depth
  refine ⟨hnext ▸ h.mode, hnext ▸ h.noCall, hin, ?_⟩
  rw [hrest] at hin ⊢
  generalize (readCommand l.run.rest).1 = word at hword hfinds
  generalize (readCommand l.run.rest).2 = rest at hin hfinds
  rcases hword with ⟨rfl, hcount⟩ | ⟨rfl, hcount, -⟩ | ⟨hlabel, hcount⟩
  · cases hfinds with
    | opened _ h => rw [h.2]; omega
    | closed hbrace | ended hbrace => exact absurd hbrace (by decide)
    | command hopen => exact absurd rfl hopen
  · cases hfinds with
    | opened hbrace => exact absurd hbrace (by decide)
    | closed _ h => rw [h.2]; omega
    | ended _ hafter => exact absurd hin.1.length_le (by simp [Block.close, hafter])
    | command _ hclose => exact absurd rfl hclose
  · have hopen : word ≠ "\x7b" := by
      rintro rfl
      exact absurd hlabel (by decide)
    have hclose : word ≠ "\x7d" := by
      rintro rfl
      exact absurd hlabel (by decide)
    rw [(hfinds.of_command hopen hclose).1.2]
    omega

/-- A run passes out of the block at the closing brace, and only if its gotos have led it outwards. -/
theorem escapes (h : Off B d l) (hturn : l.turn = .passed next) (hout : ¬B.Inside next.run.rest) :
    AtClose B l ∧ 0 < d := by
  have hrest : next.run.rest = (readCommand l.run.rest).2 := by rw [run_of_passed hturn, Run.rest_readTo]
  have hfinds := h.finds
  have hclose : AtClose B l := by
    rw [hrest] at hout
    rw [AtClose]
    generalize readCommand l.run.rest = read at *
    obtain ⟨word, rest⟩ := read
    dsimp only at hfinds hout
    cases hfinds with
    | opened _ h | closed _ h | command _ _ h => exact absurd h.1 hout
    | ended hword hafter => rw [hword, hafter]
  refine ⟨hclose, ?_⟩
  by_contra hd
  rw [(h.ended_iff hclose).2 (by omega)] at hturn
  cases hturn

theorem carried (h : Off B d l) (hturn : l.turn = .met word rest)
    (hcarry : l.carryOut table word rest = (outcome, next)) (hgo : outcome.isAbort = false)
    (hcall : ∀ name, table.lookup word ≠ some (name, .jump true))
    (hgoto : outcome = .jumped → B.Inside next.run.rest) : Off B (d + outward B outcome l next) next := by
  obtain ⟨hread, ⟨-, -, hopen, hclose, -⟩, -⟩ := eq_of_met hturn
  have hfinds := h.finds
  rw [hread] at hfinds
  obtain ⟨hrest, hclear⟩ := hfinds.of_command hopen hclose
  rw [← Run.rest_readTo l.run rest] at hrest hclear
  have heffect := effect_of_carryOut hcarry
  have hcalls : next.run.calls = l.run.calls := heffect.calls_eq_of_noCall hcall hgo h.noCall
  have hcallDepth : next.run.callDepth = l.run.callDepth := congrArg CallStack.depth hcalls
  have hsettled := settled_of_carryOut hcarry
  rw [hcallDepth, settleDepth_self, Prod.mk.injEq] at hsettled
  have hmode : next.mode = (l.carryOut table word rest).2.mode := by rw [hcarry]
  have hblock : (l.carryOut table word rest).2.mode = .block := by
    change (if _ then Mode.block else l.mode) = .block
    rw [h.mode, ite_self]
  have hdepth := h.depth
  by_cases hjump : outcome = .jumped
  · refine ⟨hmode.trans hblock, hcallDepth.trans h.noCall, hgoto hjump, ?_⟩
    rw [hsettled.1, outward, if_pos hjump]
    omega
  · have hnext := heffect.holds hrest hclear hjump hgo h.noCall
    refine ⟨hmode.trans hblock, hcallDepth.trans h.noCall, hnext.1, ?_⟩
    rw [hsettled.1, outward, if_neg hjump, hnext.2]
    omega

end Off

theorem Ranges.takes (h : Ranges table B n d l m) : Takes table n l m := by
  induction h with
  | refl l => exact .refl l
  | passed h _ _ ih => exact .passed h ih
  | carried h hcarry hgo _ _ ih => exact .carried h hcarry hgo ih

namespace Confined

theorem passed (h : Confined table B limit l) (hturn : l.turn = .passed next) :
    Confined table B limit next :=
  ⟨fun n m word rest htakes => h.noCall n m word rest (.passed hturn htakes),
    fun n m word rest last htakes => h.gotos n m word rest last (.passed hturn htakes)⟩

theorem carried (h : Confined table B (limit + 1) l) (hturn : l.turn = .met word rest)
    (hcarry : l.carryOut table word rest = (outcome, next)) (hgo : outcome.isAbort = false) :
    Confined table B limit next :=
  ⟨fun n m word' rest' htakes hn =>
      h.noCall (n + 1) m word' rest' (.carried hturn hcarry hgo htakes) (Nat.succ_lt_succ hn),
    fun n m word' rest' last htakes hn =>
      h.gotos (n + 1) m word' rest' last (.carried hturn hcarry hgo htakes) (Nat.succ_lt_succ hn)⟩

end Confined

/-- One command more, and the loop is off by what it has led outwards. -/
theorem Off.carries (h : Off B d l) (hconfined : Confined table B (limit + 1) l)
    (hturn : l.turn = .met word rest) (hcarry : l.carryOut table word rest = (outcome, next))
    (hgo : outcome.isAbort = false) : Off B (d + outward B outcome l next) next := by
  have hfirst := Nat.succ_pos limit
  refine h.carried hturn hcarry hgo (hconfined.noCall 0 l word rest (.refl l) hfirst hturn) fun hjump => ?_
  rw [hjump] at hcarry
  exact hconfined.gotos 0 l word rest next (.refl l) hfirst hturn hcarry

theorem Ranges.off {e : Int} (h : Ranges table B n d l m) (hl : Off B e l)
    (hconfined : Confined table B limit l) (hn : n ≤ limit) : Off B (e + d) m := by
  induction h generalizing e limit with
  | refl => simpa using hl
  | passed h hin _ ih => exact ih (hl.passed h hin) (hconfined.passed h) hn
  | carried h hcarry hgo _ _ ih =>
    obtain ⟨limit, rfl⟩ := Nat.exists_eq_add_of_le' (Nat.le_trans (Nat.le_add_left 1 _) hn)
    have hnext := ih (hl.carries hconfined h hcarry hgo) (hconfined.carried h hcarry hgo)
      (Nat.le_of_succ_le_succ hn)
    rw [← Int.add_assoc]
    exact hnext

/-- Unless the run escapes, all that it does it does within the block. -/
theorem exists_ranges {e : Int} (h : Takes table n l m) (hl : Off B e l)
    (hconfined : Confined table B limit l) (hn : n ≤ limit)
    (hnone : ∀ n d m, Ranges table B n d l m → n ≤ limit → AtClose B m → e + d ≤ 0) :
    ∃ d, Ranges table B n d l m := by
  induction h generalizing e limit with
  | refl l => exact ⟨0, .refl l⟩
  | @passed n l m next h _ ih =>
    by_cases hin : B.Inside m.run.rest
    · obtain ⟨d, hd⟩ := ih (hl.passed h hin) (hconfined.passed h) hn
        fun k d last hk => hnone k d last (.passed h hin hk)
      exact ⟨d, .passed h hin hd⟩
    · obtain ⟨hclose, hpos⟩ := hl.escapes h hin
      have hle := hnone 0 0 l (.refl l) (Nat.zero_le _) hclose
      omega
  | @carried n l m next word rest outcome h hcarry hgo _ ih =>
    obtain ⟨limit, rfl⟩ := Nat.exists_eq_add_of_le' (Nat.le_trans (Nat.le_add_left 1 n) hn)
    have hm := hl.carries hconfined h hcarry hgo
    obtain ⟨d, hd⟩ := ih hm (hconfined.carried h hcarry hgo) (Nat.le_of_succ_le_succ hn)
      fun k d last hk hle hclose => by
        rw [Int.add_assoc]
        exact hnone (k + 1) _ last (.carried h hcarry hgo hm.inside hk) (Nat.succ_le_succ hle) hclose
    exact ⟨_, .carried h hcarry hgo hm.inside hd⟩

/-- Behind its opening brace a run stays in the block just if its gotos let it. -/
theorem stays_iff_netInward (hl : Off B 0 l) (hconfined : Confined table B limit l) :
    Stays table B limit l ↔ NetInward table B limit l := by
  constructor
  · intro hstays n d m hranges hn hclose
    have hm := hranges.off hl hconfined hn
    rw [Int.zero_add] at hm
    exact (hm.ended_iff hclose).1 (hstays.ending n m hranges.takes hn hclose)
  · intro hnet
    have hoff : ∀ n m, Takes table n l m → n ≤ limit → ∃ d, Off B d m ∧ (AtClose B m → d ≤ 0) := by
      intro n m htakes hn
      obtain ⟨d, hd⟩ := exists_ranges htakes hl hconfined hn fun k d last hk hle hclose => by
        rw [Int.zero_add]
        exact hnet k d last hk hle hclose
      have hm := hd.off hl hconfined hn
      rw [Int.zero_add] at hm
      exact ⟨d, hm, hnet n d m hd hn⟩
    refine ⟨fun n m word rest htakes hn hturn => ?_, fun n m htakes hn hclose => ?_⟩
    · obtain ⟨d, hm, -⟩ := hoff n m htakes (Nat.le_of_lt hn)
      obtain ⟨hread, ⟨-, -, hopen, hclose, -⟩, -⟩ := eq_of_met hturn
      have hfinds := hm.finds
      rw [hread] at hfinds
      exact ⟨hm.inside, (hfinds.of_command hopen hclose).1.1⟩
    · obtain ⟨d, hm, hd⟩ := hoff n m htakes hn
      exact (hm.ended_iff hclose).2 (hd hclose)

theorem turn_closed (hread : readCommand l.run.rest = ("\x7d", rest)) (hover : ¬l.LineOver)
    (hon : ¬(l.depth - 1 ≤ 0 ∧ l.mode = .block)) :
    l.turn = .passed { l with run := l.run.readTo rest, depth := l.depth - 1 } := by
  unfold turn
  rw [hread]
  dsimp only
  rw [if_neg hover, if_neg (by decide), if_neg (by decide), if_neg (by decide), if_pos rfl, if_neg hon]

theorem takes_of_passed (hturn : l.turn = .passed m) (h : Takes table n l next) :
    next = l ∨ Takes table n m next := by
  cases h with
  | refl => exact .inl rfl
  | passed hfirst hon =>
    cases hfirst.symm.trans hturn
    exact .inr hon
  | carried hfirst => cases hfirst.symm.trans hturn

theorem takes_of_met (hturn : l.turn = .met word rest)
    (hcarry : l.carryOut table word rest = (outcome, m)) (h : Takes table n l next) :
    next = l ∨ outcome.isAbort = false ∧ ∃ k, Takes table k m next := by
  cases h with
  | refl => exact .inl rfl
  | passed hfirst => cases hfirst.symm.trans hturn
  | carried hfirst hcarried hgo hon =>
    cases hfirst.symm.trans hturn
    cases hcarried.symm.trans hcarry
    exact .inr ⟨hgo, _, hon⟩

/-- A first turn that only passes a brace is no matter. -/
theorem stays_iff_of_passed (hturn : l.turn = .passed next) (hclose : ¬AtClose B l) :
    Stays table B limit l ↔ Stays table B limit next := by
  constructor
  · intro h
    exact ⟨fun n m word rest htakes => h.commands n m word rest (.passed hturn htakes),
      fun n m htakes => h.ending n m (.passed hturn htakes)⟩
  · intro h
    refine ⟨fun n m word rest htakes hn hmet => ?_, fun n m htakes hn hat => ?_⟩
    · cases htakes with
      | refl => cases hmet.symm.trans hturn
      | passed hfirst htakes =>
        cases hfirst.symm.trans hturn
        exact h.commands n m word rest htakes hn hmet
      | carried hfirst => cases hfirst.symm.trans hturn
    · cases htakes with
      | refl => exact absurd hat hclose
      | passed hfirst htakes =>
        cases hfirst.symm.trans hturn
        exact h.ending n m htakes hn hat
      | carried hfirst => cases hfirst.symm.trans hturn

theorem netInward_iff_of_passed (hturn : l.turn = .passed next) (hclose : ¬AtClose B l)
    (hin : B.Inside next.run.rest) : NetInward table B limit l ↔ NetInward table B limit next := by
  constructor
  · intro h n d m hranges
    exact h n d m (.passed hturn hin hranges)
  · intro h n d m hranges hn hat
    cases hranges with
    | refl => exact absurd hat hclose
    | passed hfirst _ hranges =>
      cases hfirst.symm.trans hturn
      exact h n d m hranges hn hat
    | carried hfirst => cases hfirst.symm.trans hturn

end Loop

namespace Session

variable {s : Session} {owner : Option EntityId} {event : String} {i : Instance}

def handlerLoop (s : Session) (owner : Option EntityId) (i : Instance) (position : Nat)
    (params : String) : Loop := { run := s.handlerRun owner i position params, mode := .block }

/-- A handler stays in its block and ends there just if its gotos never, on balance, lead it outwards
by the time it comes to the closing brace. -/
theorem sendEvent_stays_iff {params : String} {before : List Char} {gap : List Filler} {B : Block}
    (hhandles : s.Handles owner event i (Text.size before))
    (htext : i.script.text = before ++ (Filler.text gap ++ '{' :: B.text))
    (hconfined : Loop.Confined s.engine.commands B s.engine.config.maxSteps
      (s.handlerLoop owner i (Text.size before) params)) :
    let l := s.handlerLoop owner i (Text.size before) params
    s.sendEvent owner event params = s.carryOut owner l.run l.mode ∧
      (Loop.Stays s.engine.commands B s.engine.config.maxSteps l ↔
        Loop.NetInward s.engine.commands B s.engine.config.maxSteps l) := by
  intro l
  refine ⟨hhandles.sendEvent_eq params, ?_⟩
  have hplace : l.run.rest = Filler.text gap ++ '{' :: B.text := by
    change (Text.Place.ofPosition (Text.size before) i.script.text).rest = _
    rw [htext, Text.Place.ofPosition_size_append]
  have hread : readCommand l.run.rest = ("\x7b", B.text) := by
    rw [hplace, (Alike.gap gap _).readCommand, Tree.readCommand_brace (.inl rfl)]
  have hover : ¬l.LineOver := by
    rintro ⟨hmode, -⟩
    cases hmode
  have hturn := Loop.turn_opened hread hover
  have hclose : ¬Loop.AtClose B l := by
    rw [Loop.AtClose, hread]
    intro h
    exact absurd (Prod.ext_iff.1 h).1 (by decide : "\x7b" ≠ "\x7d")
  have hrest : (l.run.readTo B.text).rest = B.text := Run.rest_readTo l.run B.text
  have hoff : Loop.Off B 0 { l with run := l.run.readTo B.text, depth := l.depth + 1 } := by
    refine ⟨rfl, rfl, ?_, ?_⟩
    · rw [hrest]
      exact Block.holds_text.1
    · rw [hrest, Block.holds_text.2]
      rfl
  rw [Loop.stays_iff_of_passed hturn hclose, Loop.netInward_iff_of_passed hturn hclose hoff.inside]
  exact Loop.stays_iff_netInward hoff (hconfined.passed hturn)

end Session

def leap : Script := .ofText "leap" "on a\n\x7b\n\x7b\ngoto b\n\x7d\n>>b\n\x7d\nrefuse"

def leapBlock : Block where
  body := "\n\x7b\ngoto b\n\x7d\n>>b\n".toList
  after := "\nrefuse".toList
  alone := by decide
  balanced := by decide
  nested := by
    intro front hfront
    have hle := hfront.length_le
    rw [List.prefix_iff_eq_take.1 hfront]
    generalize front.length = k at hle
    revert k
    decide

def leaper : Instance := { script := leap, state := .fresh 0 }

def leapSession : Session where
  engine :=
    { config := {}
      commands := { commands := (Dict.empty.set "goto" (.jump false)).set "refuse" (.stop .abortRefuse) }
      shared := Loop.errand.shared
      instances := Dict.empty.set 1 leaper }

namespace Leap

def table : CommandTable := leapSession.engine.commands

def start : Loop := leapSession.handlerLoop (some 1) leaper (Text.size "on a".toList) ""

def entered : Loop :=
  { start with run := start.run.readTo "\n\x7b\ngoto b\n\x7d\n>>b\n\x7d\nrefuse".toList, depth := 1 }

def inner : Loop :=
  { entered with run := entered.run.readTo "\ngoto b\n\x7d\n>>b\n\x7d\nrefuse".toList, depth := 2 }

def landed : Loop := (inner.carryOut table "goto" " b\n\x7d\n>>b\n\x7d\nrefuse".toList).2

def escaped : Loop :=
  { landed with run := landed.run.readTo leapBlock.after, depth := landed.depth - 1 }

/-- What there is to read at each of these places. -/
theorem reads :
    readCommand start.run.rest = ("\x7b", "\n\x7b\ngoto b\n\x7d\n>>b\n\x7d\nrefuse".toList) ∧
      readCommand entered.run.rest = ("\x7b", "\ngoto b\n\x7d\n>>b\n\x7d\nrefuse".toList) ∧
      readCommand inner.run.rest = ("goto", " b\n\x7d\n>>b\n\x7d\nrefuse".toList) ∧
      readCommand "\n\x7d\nrefuse".toList = ("\x7d", leapBlock.after) ∧
      readCommand "\nrefuse".toList = ("refuse", []) := by
  decide

/-- The goto leads to the label, and does not change the count of braces. -/
theorem jumps :
    (inner.carryOut table "goto" " b\n\x7d\n>>b\n\x7d\nrefuse".toList).1 = .jumped ∧
      landed.mode = .block ∧ landed.depth = 2 ∧ landed.run.rest = "\n\x7d\nrefuse".toList := by
  decide +kernel

theorem turn_start : start.turn = .passed entered :=
  Loop.turn_opened reads.1 (fun h => absurd h.1 (by decide))

theorem turn_entered : entered.turn = .passed inner :=
  Loop.turn_opened reads.2.1 (fun h => absurd h.1 (by decide))

theorem turn_inner : inner.turn = .met "goto" " b\n\x7d\n>>b\n\x7d\nrefuse".toList :=
  Loop.met_of_read reads.2.2.1 (by decide) (fun h => absurd h.1 (by decide))

theorem carryOut_inner :
    inner.carryOut table "goto" " b\n\x7d\n>>b\n\x7d\nrefuse".toList = (.jumped, landed) := by
  rw [landed, ← jumps.1]

theorem landed_mode : landed.mode = .block := jumps.2.1

theorem landed_rest : landed.run.rest = "\n\x7d\nrefuse".toList := jumps.2.2.2

theorem landed_atClose : Loop.AtClose leapBlock landed := by
  rw [Loop.AtClose, landed_rest]
  exact reads.2.2.2.1

/-- As the run counts, the brace that closes the handler closes the inner block. -/
theorem turn_landed : landed.turn = .passed escaped := by
  have hread : readCommand landed.run.rest = ("\x7d", leapBlock.after) := landed_atClose
  have hover : ¬landed.LineOver := fun h => absurd (landed_mode.symm.trans h.1) (by decide)
  have hon : ¬(landed.depth - 1 ≤ 0 ∧ landed.mode = .block) := by
    rw [jumps.2.2.1]
    decide
  exact Loop.turn_closed hread hover hon

theorem escaped_rest : escaped.run.rest = "\nrefuse".toList := by
  rw [escaped, Run.rest_readTo]
  rfl

theorem turn_escaped : escaped.turn = .met "refuse" [] := by
  have hread : readCommand escaped.run.rest = ("refuse", []) := by
    rw [escaped_rest]
    exact reads.2.2.2.2
  have hmode : escaped.mode = .block := by rw [escaped, landed_mode]
  refine Loop.met_of_read hread (by decide) fun hover => ?_
  rw [Loop.LineOver, hmode] at hover
  exact absurd hover.1 (by decide)

theorem carryOut_escaped : ∃ last, escaped.carryOut table "refuse" [] = (.abortRefuse, last) := by
  have hstop : (escaped.carryOut table "refuse" []).1 = .abortRefuse := by decide +kernel
  exact ⟨(escaped.carryOut table "refuse" []).2, by rw [← hstop]⟩

/-- All that the run comes through. -/
theorem takes_cases {n : Nat} {l : Loop} (h : Loop.Takes table n start l) :
    l = start ∨ l = entered ∨ l = inner ∨ l = landed ∨ l = escaped := by
  rcases Loop.takes_of_passed turn_start h with h | h
  · exact .inl h
  rcases Loop.takes_of_passed turn_entered h with h | h
  · exact .inr (.inl h)
  rcases Loop.takes_of_met turn_inner carryOut_inner h with h | ⟨-, k, h⟩
  · exact .inr (.inr (.inl h))
  rcases Loop.takes_of_passed turn_landed h with h | h
  · exact .inr (.inr (.inr (.inl h)))
  obtain ⟨last, hlast⟩ := carryOut_escaped
  rcases Loop.takes_of_met turn_escaped hlast h with h | ⟨hgo, -⟩
  · exact .inr (.inr (.inr (.inr h)))
  · cases hgo

/-- The only commands that the run meets are the goto and the refusal. -/
theorem met_cases {n : Nat} {l : Loop} {word : String} {rest : List Char}
    (h : Loop.Takes table n start l) (hmet : l.turn = .met word rest) :
    l = inner ∧ word = "goto" ∧ rest = " b\n\x7d\n>>b\n\x7d\nrefuse".toList ∨
      l = escaped ∧ word = "refuse" ∧ rest = [] := by
  rcases takes_cases h with hl | hl | hl | hl | hl
  · rw [hl, turn_start] at hmet
    cases hmet
  · rw [hl, turn_entered] at hmet
    cases hmet
  · rw [hl, turn_inner] at hmet
    cases hmet
    exact .inl ⟨hl, rfl, rfl⟩
  · rw [hl, turn_landed] at hmet
    cases hmet
  · rw [hl, turn_escaped] at hmet
    cases hmet
    exact .inr ⟨hl, rfl, rfl⟩

theorem landed_inside : leapBlock.Inside landed.run.rest := by
  rw [landed_rest]
  exact ⟨by decide, by decide⟩

theorem confined (limit : Nat) : Loop.Confined table leapBlock limit start where
  noCall n l word rest htakes _ hmet name hlookup := by
    have hnone : ∀ w ∈ ["goto", "refuse"], (table.lookup w).map (·.2) ≠ some (.jump true) := by
      decide
    have hcall : (table.lookup word).map (·.2) = some (.jump true) := by rw [hlookup]; rfl
    rcases met_cases htakes hmet with ⟨-, rfl, -⟩ | ⟨-, rfl, -⟩
    · exact hnone "goto" (by decide) hcall
    · exact hnone "refuse" (by decide) hcall
  gotos n l word rest next htakes _ hmet hcarry := by
    rcases met_cases htakes hmet with ⟨rfl, rfl, rfl⟩ | ⟨rfl, rfl, rfl⟩
    · rw [carryOut_inner, Prod.mk.injEq] at hcarry
      rw [← hcarry.2]
      exact landed_inside
    · obtain ⟨last, hlast⟩ := carryOut_escaped
      rw [hlast, Prod.mk.injEq] at hcarry
      cases hcarry.1

/-- The goto has led one block outwards when the run comes to the closing brace. -/
theorem not_netInward : ¬Loop.NetInward table leapBlock leapSession.engine.config.maxSteps start := by
  intro hnet
  have hentered : leapBlock.Inside entered.run.rest := ⟨by decide, by decide⟩
  have hinner : leapBlock.Inside inner.run.rest := ⟨by decide, by decide⟩
  have hranges := Loop.Ranges.passed turn_start hentered <| .passed turn_entered hinner <|
    .carried turn_inner carryOut_inner rfl landed_inside (.refl landed)
  have hout : Loop.outward leapBlock .jumped inner landed + 0 = 1 := by
    rw [Loop.outward, landed_rest]
    decide
  have hle := hnet _ _ _ hranges (by decide) landed_atClose
  rw [hout] at hle
  exact absurd hle (by decide)

end Leap

/-- A goto to a label of the handler's own block, and yet the run goes on behind that block. -/
theorem sendEvent_stays_iff_leap :
    Loop.Confined Leap.table leapBlock leapSession.engine.config.maxSteps Leap.start ∧
      ¬Loop.Stays Leap.table leapBlock leapSession.engine.config.maxSteps Leap.start ∧
      (leapSession.sendEvent (some 1) "a" "").1 = .abortRefuse := by
  have hhandles : leapSession.Handles (some 1) "a" leaper (Text.size "on a".toList) :=
    { found := rfl
      allowed := by
        rw [Text.lowercase_of_isLower (by decide)]
        decide
      handler := by
        rw [Text.lowercase_of_isLower (by decide)]
        decide +kernel }
  have htext : leap.text =
      "on a".toList ++ (Filler.text [.blank lineBreak] ++ '{' :: leapBlock.text) := by decide
  obtain ⟨hsend, hstays⟩ :=
    Session.sendEvent_stays_iff hhandles htext (Leap.confined leapSession.engine.config.maxSteps)
  refine ⟨Leap.confined _, fun h => Leap.not_netInward (hstays.1 h), ?_⟩
  rw [hsend]
  decide +kernel

end EntityScript
