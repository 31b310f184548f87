import EntityScript.Proofs.Actions

/-! Words with their variables filled in. Filling in only looks at what statements can see, so a
word stands for the same text wherever on its line it is read, and reading on a line takes its words
one after another. `Gives` says so of the parts that a statement reads its operands by. -/

namespace EntityScript

open Reading

namespace Run

def textOf (r : Run) (word : String) : String := (r.valueOf word .text).toText

def numberOf (r : Run) (word : String) : Float32 := (r.valueOf word .number).toNumber

def fill (r : Run) : List (List Char) → List Char
  | [] => []
  | [text] => text
  | [text, unclosed] => text ++ '~' :: unclosed
  | text :: name :: more => text ++ (r.textOf (String.ofList name)).toList ++ r.fill more

def filled (r : Run) (word : List Char) : String :=
  String.ofList (r.fill (Text.pieces (· == '~') word))

/-- What is filled in are the texts of operands only. -/
theorem fill_congr {r s : Run} (h : ∀ word, s.textOf word = r.textOf word) (pieces : List (List Char)) :
    s.fill pieces = r.fill pieces := by
  induction pieces using fill.induct with
  | case1 | case2 | case3 => rfl
  | case4 text name more hmore ih => rw [fill, fill, h, ih] <;> exact hmore

theorem filled_congr {r s : Run} (h : ∀ word, s.textOf word = r.textOf word) : s.filled = r.filled :=
  funext fun _ => congrArg String.ofList (fill_congr h _)

def words (r : Run) : List String := (lineWords r.rest).1.map r.filled

end Run

namespace SameScene

variable {r s : Run}

theorem textOf (h : SameScene r s) (word : String) : s.textOf word = r.textOf word :=
  congrArg Value.toText (h.valueOf word .text)

theorem numberOf (h : SameScene r s) (word : String) : s.numberOf word = r.numberOf word :=
  congrArg Value.toNumber (h.valueOf word .number)

theorem filled (h : SameScene r s) (word : List Char) : s.filled word = r.filled word :=
  congrFun (Run.filled_congr h.textOf) word

end SameScene

namespace Exec

theorem textOf_run (word : String) (r : Run) :
    ∃ journal, (textOf word).run r = (r.textOf word, { r with journal }) := by
  obtain ⟨journal, hrun⟩ := resolve_run word .text r
  exact ⟨journal, run_bind_of hrun⟩

theorem numberOf_run (word : String) (r : Run) :
    ∃ journal, (numberOf word).run r = (r.numberOf word, { r with journal }) := by
  obtain ⟨journal, hrun⟩ := resolve_run word .number r
  exact ⟨journal, run_bind_of hrun⟩

theorem fillIn_run (pieces : List (List Char)) (r : Run) :
    ∃ journal, (fillIn pieces).run r = (r.fill pieces, { r with journal }) := by
  induction pieces using fillIn.induct generalizing r with
  | case1 | case2 | case3 => exact ⟨r.journal, rfl⟩
  | case4 text name more hmore ih =>
    obtain ⟨named, hname⟩ := textOf_run (String.ofList name) r
    obtain ⟨journal, hrest⟩ := ih { r with journal := named }
    rw [Run.fill_congr (SameScene.journal r named).textOf] at hrest
    refine ⟨journal, ?_⟩
    rw [fillIn, Run.fill, run_bind_of hname, run_bind_of hrest]
    · rfl
    · exact hmore
    · exact hmore

theorem expand_run (word : List Char) (r : Run) :
    ∃ journal, (expand word).run r = (r.filled word, { r with journal }) := by
  obtain ⟨journal, hrun⟩ := fillIn_run (Text.pieces (· == '~') word) r
  exact ⟨journal, run_bind_of hrun⟩

/-- The next word is read and filled in. -/
theorem readWord_token {r : Run} {token : Token} (h : nextToken r.rest = some token) :
    ∃ journal, readWord.run r = (r.filled token.word, { r.readTo token.rest with journal }) := by
  obtain ⟨journal, hrun⟩ := expand_run token.word (r.readTo token.rest)
  refine ⟨journal, ?_⟩
  rw [readWord_run, h]
  dsimp only
  rw [hrun, (SameScene.readTo r token.rest).filled]

/-- From runs with the scene of `r` and these words ahead, the part answers `a` and goes on to `more`. -/
def Gives {α : Type} (r : Run) (words : List String) (m : Exec α) (a : α) (more : List String) : Prop :=
  ∀ s, SameScene r s → s.words = words → ∃ t, m.run s = (a, t) ∧ SameScene r t ∧ t.words = more

namespace Gives

variable {α β : Type} {r : Run} {words mid more : List String} {a : α} {b : β}

theorem pure (a : α) : Gives r words (pure a) a words := fun s hs hw => ⟨s, rfl, hs, hw⟩

theorem bind {m : Exec α} {f : α → Exec β} (hm : Gives r words m a mid) (hf : Gives r mid (f a) b more) :
    Gives r words (m >>= f) b more := by
  intro s hs hw
  obtain ⟨t, hrun, ht, hmid⟩ := hm s hs hw
  obtain ⟨u, hrest, hu, hmore⟩ := hf t ht hmid
  exact ⟨u, (run_bind_of hrun).trans hrest, hu, hmore⟩

theorem map {m : Exec α} (hm : Gives r words m a more) (f : α → β) : Gives r words (f <$> m) (f a) more := by
  rw [map_eq_pure_bind]
  exact hm.bind (pure (f a))

end Gives

variable {r : Run} {words : List String}

/-- Looking something up leaves the words as they are. -/
theorem gives_of_run {α : Type} {m : Exec α} {f : Run → α}
    (hm : ∀ s, ∃ journal, m.run s = (f s, { s with journal })) (hf : ∀ s, SameScene r s → f s = f r) :
    Gives r words m (f r) words := by
  intro s hs hw
  obtain ⟨journal, hrun⟩ := hm s
  have hkept : Run.words { s with journal } = s.words :=
    congrArg (List.map · _) (funext fun word => (SameScene.journal s journal).filled word)
  exact ⟨_, hrun.trans (by rw [hf s hs]), hs.trans (SameScene.journal s journal), hkept.trans hw⟩

theorem textOf_gives (word : String) : Gives r words (textOf word) (r.textOf word) words :=
  gives_of_run (textOf_run word) fun _ hs => hs.textOf word

theorem numberOf_gives (word : String) : Gives r words (numberOf word) (r.numberOf word) words :=
  gives_of_run (numberOf_run word) fun _ hs => hs.numberOf word

/-- Behind the last word of the line every word is empty. -/
theorem readWord_gives : Gives r words readWord (words.headD "") words.tail := by
  intro s hs hw
  rw [Run.words, lineWords_eq] at hw
  cases htoken : nextToken s.rest with
  | none =>
    have hempty : s.words = [] := by rw [Run.words, lineWords_of_none htoken]; rfl
    rw [htoken] at hw
    subst hw
    exact ⟨s, by rw [readWord_run, htoken]; rfl, hs, hempty⟩
  | some token =>
    obtain ⟨journal, hrun⟩ := readWord_token htoken
    rw [htoken] at hw
    subst hw
    have hscene : SameScene s { s.readTo token.rest with journal } :=
      (SameScene.readTo s token.rest).trans (SameScene.journal _ journal)
    refine ⟨_, hrun, hs.trans hscene, ?_⟩
    have hrest : Run.rest { s.readTo token.rest with journal } = token.rest := Run.rest_readTo s token.rest
    rw [Run.words, hrest]
    exact congrArg (List.map · _) (funext fun word => hscene.filled word)

end Exec

end EntityScript
