/-
# What the tokens of a text are

`Lexeme kind lexeme rest` says which pieces of text are tokens in front of which texts, with one
constructor for each sort of token.  The first token of a text is the one piece of it that is a
lexeme in front of what follows (`lexeme_munch`, `Lexeme.munch_eq`), and so the tokens of a text are
one lexeme behind the other (`exists_of_tokenizeFrom`, `Lexeme.tokenizeFrom_append`).
-/
import SymbolicCalculus.Proofs.Lexing.Readings

namespace SymbolicCalculus

namespace Token

/-! ## 1. Lexemes -/

/-- A token of the kind, in front of the rest of a text. -/
inductive Lexeme : Kind → List Char → List Char → Prop where
  | blanks {cs rest : List Char} (hne : cs ≠ []) (hcs : ∀ x ∈ cs, isBlankChar x = true)
      (hrest : ∀ x ∈ rest.head?, isBlankChar x = false) : Lexeme .whitespace cs rest
  | word {cs rest : List Char} (hne : cs ≠ []) (hcs : ∀ x ∈ cs, x.isAlpha = true)
      (hrest : ∀ x ∈ rest.head?, x.isAlpha = false) : Lexeme .name cs rest
  /-- Digits, and maybe a point and more digits. -/
  | number {ds fraction rest : List Char} (hne : ds ≠ []) (hds : ∀ x ∈ ds, x.isDigit = true)
      (hfraction : fraction = [] ∨ ∃ fs, fraction = '.' :: fs ∧ ∀ x ∈ fs, x.isDigit = true)
      (hdigit : ∀ x ∈ rest.head?, x.isDigit = false)
      (hpoint : fraction = [] → ∀ x ∈ rest.head?, x ≠ '.') :
      Lexeme .number (ds ++ fraction) rest
  /-- A point and digits. -/
  | fraction {ds rest : List Char} (hne : ds ≠ []) (hds : ∀ x ∈ ds, x.isDigit = true)
      (hrest : ∀ x ∈ rest.head?, x.isDigit = false) : Lexeme .number ('.' :: ds) rest
  /-- A point without digits. -/
  | point {rest : List Char} (hrest : ∀ x ∈ rest.head?, x.isDigit = false) :
      Lexeme .symbol ['.'] rest
  | sign {c : Char} {kind : Kind} {rest : List Char} (hc : signKind? c = some kind) :
      Lexeme kind [c] rest
  /-- A character with no meaning. -/
  | other {c : Char} {rest : List Char} (hblank : isBlankChar c = false)
      (halpha : c.isAlpha = false) (hdigit : c.isDigit = false) (hpoint : c ≠ '.')
      (hsign : signKind? c = none) : Lexeme .symbol [c] rest

/-- The text behind a run does not continue it. -/
theorem not_head_dropWhile (p : Char → Bool) (cs : List Char) :
    ∀ x ∈ (cs.dropWhile p).head?, p x = false := by
  intro x hx
  have h := List.head?_dropWhile_not p cs
  rw [Option.mem_def.mp hx] at h
  simpa using h

/-- Behind digits there is nothing more of a number, or a point and digits. -/
theorem munchFraction_cases (cs : List Char) :
    ((munchFraction cs).1 = [] ∧ (munchFraction cs).2 = cs ∧ ∀ x ∈ cs.head?, x ≠ '.') ∨
    ∃ ds rest, munchFraction cs = ('.' :: ds, rest) ∧ (∀ x ∈ ds, x.isDigit = true) ∧
      ∀ x ∈ rest.head?, x.isDigit = false := by
  unfold munchFraction
  split
  · next cs =>
    exact .inr ⟨_, _, rfl, fun x hx => List.mem_takeWhile_imp hx, not_head_dropWhile _ cs⟩
  · next hpoint =>
    refine .inl ⟨rfl, rfl, fun x hx hdot => ?_⟩
    obtain ⟨tail, rfl⟩ := List.head?_eq_some_iff.mp hx
    exact hpoint tail (by rw [hdot])

/-- The first token of a text is a lexeme. -/
theorem lexeme_munch (c : Char) (cs : List Char) :
    Lexeme (munch c cs).1 (munch c cs).2.1 (munch c cs).2.2 := by
  unfold munch
  split
  · next hc =>
    refine .blanks (by simp) ?_ (not_head_dropWhile _ cs)
    exact List.forall_mem_cons.mpr ⟨hc, fun x hx => List.mem_takeWhile_imp hx⟩
  · next hblank =>
    split
    · next hc =>
      refine .word (by simp) ?_ (not_head_dropWhile _ cs)
      exact List.forall_mem_cons.mpr ⟨hc, fun x hx => List.mem_takeWhile_imp hx⟩
    · next halpha =>
      split
      · next hc =>
        have hds : ∀ x ∈ c :: cs.takeWhile Char.isDigit, x.isDigit = true :=
          List.forall_mem_cons.mpr ⟨hc, fun x hx => List.mem_takeWhile_imp hx⟩
        simp only [splitRun]
        rcases munchFraction_cases (cs.dropWhile Char.isDigit) with
          ⟨hnil, hrest, hpoint⟩ | ⟨fs, rest, hmunch, hfs, hrest⟩
        · rw [hnil, hrest]
          exact .number (by simp) hds (.inl rfl) (not_head_dropWhile _ cs) fun _ => hpoint
        · rw [hmunch]
          exact .number (by simp) hds (.inr ⟨fs, rfl, hfs⟩) hrest fun h => absurd h (by simp)
      · next hdigit =>
        split
        · next hdot =>
          obtain rfl : c = '.' := by simpa using hdot
          have hrest := not_head_dropWhile Char.isDigit cs
          split
          · next rest hrun =>
            obtain rfl : cs.dropWhile Char.isDigit = rest := congrArg Prod.snd hrun
            exact .point hrest
          · next ds rest hne hrun =>
            obtain ⟨rfl, rfl⟩ : cs.takeWhile Char.isDigit = ds ∧ cs.dropWhile Char.isDigit = rest :=
              Prod.mk.inj hrun
            exact .fraction hne (fun x hx => List.mem_takeWhile_imp hx) hrest
        · next hdot =>
          cases hsign : signKind? c with
          | some kind => exact .sign hsign
          | none =>
            exact .other (by simpa using hblank) (by simpa using halpha) (by simpa using hdigit)
              (by simpa using hdot) hsign

/-- A lexeme at the front of a text is its first token. -/
theorem Lexeme.munch_eq {kind : Kind} {lexeme rest cs : List Char} {c : Char}
    (h : Lexeme kind lexeme rest) (hcs : c :: cs = lexeme ++ rest) :
    munch c cs = (kind, lexeme, rest) := by
  cases h with
  | @blanks bs _ hne hbs hrest =>
    obtain ⟨b, bs, rfl⟩ := List.exists_cons_of_ne_nil hne
    obtain ⟨rfl, rfl⟩ := List.cons.inj (List.cons_append ▸ hcs)
    have hrun := splitRun_eq (fun x hx => hbs x (List.mem_cons_of_mem c hx)) hrest
    simp only [munch, hbs c List.mem_cons_self, hrun, if_true]
  | @word ls _ hne hls hrest =>
    obtain ⟨l, ls, rfl⟩ := List.exists_cons_of_ne_nil hne
    obtain ⟨rfl, rfl⟩ := List.cons.inj hcs
    exact munch_word hls hrest
  | @number ds fraction _ hne hds hfraction hdigit hpoint =>
    obtain ⟨d, ds, rfl⟩ := List.exists_cons_of_ne_nil hne
    obtain ⟨rfl, rfl⟩ := List.cons.inj hcs
    exact munch_number hds hfraction hdigit hpoint
  | @fraction ds _ hne hds hrest =>
    obtain ⟨d, ds, rfl⟩ := List.exists_cons_of_ne_nil hne
    obtain ⟨rfl, rfl⟩ := List.cons.inj (List.cons_append ▸ hcs)
    have hrun := splitRun_eq hds hrest
    simp only [munch, hrun]
    rfl
  | point hrest =>
    obtain ⟨rfl, rfl⟩ := List.cons.inj hcs
    have hrun : splitRun Char.isDigit cs = ([], cs) := splitRun_eq (List.forall_mem_nil _) hrest
    simp only [munch, hrun]
    rfl
  | sign hc =>
    obtain ⟨rfl, rfl⟩ := List.cons.inj hcs
    exact munch_sign hc cs
  | other hblank halpha hdigit hpoint hsign =>
    obtain ⟨rfl, rfl⟩ := List.cons.inj hcs
    simp [munch, hblank, halpha, hdigit, hpoint, hsign]

theorem Lexeme.ne_nil {kind : Kind} {lexeme rest : List Char} (h : Lexeme kind lexeme rest) :
    lexeme ≠ [] := by
  cases h with
  | blanks hne => exact hne
  | word hne => exact hne
  | number hne => exact List.append_ne_nil_of_left_ne_nil hne _
  | _ => exact List.cons_ne_nil _ _

/-- A sign is no letter, and neither whitespace nor a name. -/
theorem of_signKind? {c : Char} {kind : Kind} (h : signKind? c = some kind) :
    c.isAlpha = false ∧ kind ≠ .whitespace ∧ kind ≠ .name := by
  unfold signKind? at h
  split at h
  case h_8 => exact absurd h (by simp)
  all_goals
    obtain rfl := Option.some.inj h
    decide

/-- Whitespace consists of blanks. -/
theorem Lexeme.isBlankChar {lexeme rest : List Char} (h : Lexeme .whitespace lexeme rest) :
    ∀ x ∈ lexeme, isBlankChar x = true := by
  generalize hkind : Kind.whitespace = kind at h
  cases h with
  | blanks hne hcs hrest => exact hcs
  | sign hc => exact absurd hkind.symm (of_signKind? hc).2.1
  | _ => exact absurd hkind (by simp)

/-! ## 2. The tokens of a text -/

/-- A lexeme at the front of a text is its first token, and the others are those of the rest. -/
theorem Lexeme.tokenizeFrom_append {kind : Kind} {lexeme rest : List Char}
    (h : Lexeme kind lexeme rest) (start : Nat) :
    tokenizeFrom start (lexeme ++ rest) = ⟨kind, ⟨start, start + utf8Length lexeme⟩, lexeme⟩ ::
      tokenizeFrom (start + utf8Length lexeme) rest := by
  obtain ⟨c, cs, hcs⟩ := List.exists_cons_of_ne_nil
    (List.append_ne_nil_of_left_ne_nil h.ne_nil rest)
  rw [hcs, tokenizeFrom, h.munch_eq hcs.symm]

theorem Lexeme.solids_tokenizeFrom_append {kind : Kind} {lexeme rest : List Char}
    (h : Lexeme kind lexeme rest) (hkind : kind ≠ .whitespace) (start : Nat) :
    solids (tokenizeFrom start (lexeme ++ rest)) =
      ⟨kind, ⟨start, start + utf8Length lexeme⟩, lexeme⟩ ::
        solids (tokenizeFrom (start + utf8Length lexeme) rest) := by
  rw [h.tokenizeFrom_append]
  exact solids_cons_of_not_isBlank (by simpa [isBlank] using hkind) _

/-- The first token of a text is a lexeme, and the others are those of the rest. -/
theorem exists_of_tokenizeFrom {start : Nat} {cs : List Char} {t : Token} {ts : List Token}
    (h : tokenizeFrom start cs = t :: ts) :
    ∃ rest, cs = t.lexeme ++ rest ∧ Lexeme t.kind t.lexeme rest ∧
      t.span = ⟨start, start + utf8Length t.lexeme⟩ ∧
      ts = tokenizeFrom (start + utf8Length t.lexeme) rest := by
  cases cs with
  | nil => exact absurd h (by simp [tokenizeFrom])
  | cons c cs =>
    rw [tokenizeFrom] at h
    obtain ⟨rfl, rfl⟩ := List.cons.inj h
    exact ⟨_, (munch_append c cs).symm, lexeme_munch c cs, rfl, rfl⟩

/-- Blanks hold no solid token. -/
theorem solids_tokenizeFrom_dropWhile (start : Nat) (cs : List Char) :
    solids (tokenizeFrom start cs) =
      solids (tokenizeFrom (start + utf8Length (cs.takeWhile isBlankChar))
        (cs.dropWhile isBlankChar)) := by
  by_cases hnil : cs.takeWhile isBlankChar = []
  · have hcs : cs.dropWhile isBlankChar = cs := by
      simpa [hnil] using List.takeWhile_append_dropWhile (p := isBlankChar) (l := cs)
    rw [hnil, hcs]
    rfl
  · have hblanks : Lexeme .whitespace (cs.takeWhile isBlankChar) (cs.dropWhile isBlankChar) :=
      .blanks hnil (fun x hx => List.mem_takeWhile_imp hx) (not_head_dropWhile _ cs)
    have h := hblanks.tokenizeFrom_append start
    rw [List.takeWhile_append_dropWhile] at h
    rw [h, solids_cons_of_isBlank rfl]

theorem solids_tokenizeFrom_blanks {blanks : List Char}
    (h : ∀ x ∈ blanks, isBlankChar x = true) (start : Nat) (cs : List Char) :
    solids (tokenizeFrom start (blanks ++ cs)) =
      solids (tokenizeFrom (start + utf8Length blanks) cs) := by
  rw [solids_tokenizeFrom_dropWhile, solids_tokenizeFrom_dropWhile _ cs,
    List.takeWhile_append_of_pos h, List.dropWhile_append_of_pos h, utf8Length_append,
    Nat.add_assoc]

end Token

end SymbolicCalculus
