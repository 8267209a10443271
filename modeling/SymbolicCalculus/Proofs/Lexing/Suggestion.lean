/-
# The function that an error suggests

A run of letters that is neither a parameter nor a keyword is undefined, and so is a lone `arc` with
the run of letters behind it if the two do not name a function together.  The error suggests the
function whose name is the fewest edits away, if there is one within two.

* The keywords are the names of the functions, in either case, and nothing else
  (`Func.ofKeyword?_eq_some_iff`): taking `arc` off the front again and again, which the recursion
  does, accepts no word that no function has for its name.
* Functions that are too far away are left out before the nearest one is sought; leaving them out
  afterwards comes to the same (`Func.cheapest?_filter`).  So the suggested function is the nearest
  of all, and the first one of these (`Func.suggest?_eq_some_iff`).
* An error of the lexer is about a token that is no name, and suggests nothing, or about a name that
  means nothing (`Token.Reading.Gives.of_error`).

`Lexer.suggestion_nearest` puts these together.
-/
import SymbolicCalculus.Binary64
import SymbolicCalculus.Proofs.EditDistance
import SymbolicCalculus.Proofs.Lexing.Parentheses
import SymbolicCalculus.Proofs.Lexing.Respelling

namespace SymbolicCalculus

universe u

variable {ν : Type u}

namespace Func

/-! ## 1. Keywords -/

theorem ofLowercase?_name (f : Func) : ofLowercase? f.name.toList = some f := by
  cases f <;> decide

/-- Only the name of a function is its keyword. -/
theorem eq_name_of_ofLowercase? {cs : List Char} {f : Func} (h : ofLowercase? cs = some f) :
    cs = f.name.toList := by
  induction cs using ofLowercase?.induct generalizing f with
  | case1 rest ih =>
    rw [ofLowercase?] at h
    obtain ⟨g, hg, hinverse⟩ := Option.bind_eq_some_iff.mp h
    rw [ih hg]
    cases g with
    | sin | cos | tan =>
      obtain rfl := Option.some.inj hinverse
      rfl
    | _ => exact absurd hinverse (by simp [inverse?])
  | case2 cs hcs =>
    rw [ofLowercase?.eq_2 cs hcs, List.find?_eq_some_iff_append] at h
    exact (beq_iff_eq.mp h.1).symm

/-- The keywords of a function are the spellings of its name. -/
theorem ofKeyword?_eq_some_iff {cs : List Char} {f : Func} :
    ofKeyword? cs = some f ↔ lowercase cs = f.name.toList := by
  constructor
  · exact eq_name_of_ofLowercase?
  · intro h
    rw [ofKeyword?, h]
    exact ofLowercase?_name f

/-- A keyword is a word at no distance from its function. -/
theorem distance_eq_zero_iff {cs : List Char} {f : Func} :
    distance cs f = 0 ↔ ofKeyword? cs = some f := by
  rw [distance, editDistance_eq_zero_iff, ofKeyword?_eq_some_iff, eq_comm]

/-! ## 2. The nearest function -/

section Cheapest

variable {α : Type} {cost : α → Nat}

theorem cheapest?_eq_none_iff {xs : List α} : cheapest? cost xs = none ↔ xs = [] := by
  cases xs with
  | nil => simp [cheapest?]
  | cons x xs =>
    simp only [cheapest?, reduceCtorEq, iff_false]
    split
    · simp
    · split <;> simp

/-- The cheapest element within a bound is the cheapest one, if that is within the bound. -/
theorem cheapest?_filter (bound : Nat) (xs : List α) :
    cheapest? cost (xs.filter fun x => cost x ≤ bound) =
      (cheapest? cost xs).filter fun x => cost x ≤ bound := by
  induction xs with
  | nil => rfl
  | cons x xs ih =>
    by_cases hx : cost x ≤ bound
    · rw [List.filter_cons_of_pos (by simpa using hx)]
      simp only [cheapest?, ih]
      cases cheapest? cost xs with
      | none => simp [Option.filter_some, hx]
      | some y =>
        by_cases hxy : cost x ≤ cost y
        · by_cases hy : cost y ≤ bound <;> simp [Option.filter_some, hx, hy, hxy]
        · have hy : cost y ≤ bound := by omega
          simp [Option.filter_some, hxy, hy]
    · rw [List.filter_cons_of_neg (by simpa using hx), ih]
      simp only [cheapest?]
      cases cheapest? cost xs with
      | none => simp [Option.filter_some, hx]
      | some y =>
        by_cases hxy : cost x ≤ cost y
        · have hy : ¬cost y ≤ bound := by omega
          simp [Option.filter_some, hx, hy, hxy]
        · simp [hxy]

/-- The cheapest element is the first one of those with the least cost. -/
theorem of_cheapest?_eq_some [DecidableEq α] {xs : List α} {x : α}
    (h : cheapest? cost xs = some x) :
    x ∈ xs ∧ ∀ y ∈ xs, cost x ≤ cost y ∧ (cost y = cost x → xs.idxOf x ≤ xs.idxOf y) := by
  induction xs generalizing x with
  | nil => exact absurd h (by simp [cheapest?])
  | cons z zs ih =>
    simp only [cheapest?] at h
    split at h
    · next hzs =>
      obtain rfl := Option.some.inj h
      simp [cheapest?_eq_none_iff.mp hzs]
    · next w hzs =>
      obtain ⟨hw, hleast⟩ := ih hzs
      split at h
      · next hzw =>
        obtain rfl := Option.some.inj h
        refine ⟨List.mem_cons_self, ?_⟩
        intro y hy
        refine ⟨?_, by simp⟩
        rcases List.mem_cons.mp hy with rfl | hy
        · exact le_rfl
        · exact hzw.trans (hleast y hy).1
      · next hzw =>
        obtain rfl := Option.some.inj h
        refine ⟨List.mem_cons_of_mem z hw, ?_⟩
        intro y hy
        rcases List.mem_cons.mp hy with rfl | hy
        · exact ⟨by omega, by omega⟩
        · obtain ⟨hle, hfirst⟩ := hleast y hy
          refine ⟨hle, fun heq => ?_⟩
          -- `z` costs more, so that it is neither of the two
          have hzw' : z ≠ w := by
            rintro rfl
            exact hzw le_rfl
          have hzy : z ≠ y := by
            rintro rfl
            exact hzw heq.le
          rw [List.idxOf_cons_ne zs hzw', List.idxOf_cons_ne zs hzy]
          exact Nat.succ_le_succ (hfirst heq)

end Cheapest

/-- No function is nearer, and the function comes first among those that are as near. -/
structure IsNearest (distance : Func → Nat) (f : Func) : Prop where
  le : ∀ g, distance f ≤ distance g
  first : ∀ g, distance g = distance f → all.idxOf f ≤ all.idxOf g

theorem IsNearest.eq {distance : Func → Nat} {f g : Func} (hf : IsNearest distance f)
    (hg : IsNearest distance g) : f = g := by
  have hdistance : distance f = distance g := (hf.le g).antisymm (hg.le f)
  have hidx := (hf.first g hdistance.symm).antisymm (hg.first f hdistance)
  exact (List.idxOf_inj (mem_all f)).mp hidx

theorem cheapest?_all_eq_some_iff {distance : Func → Nat} {f : Func} :
    cheapest? distance all = some f ↔ IsNearest distance f := by
  have hnearest {g : Func} (h : cheapest? distance all = some g) : IsNearest distance g := by
    obtain ⟨-, hleast⟩ := of_cheapest?_eq_some h
    exact ⟨fun k => (hleast k (mem_all k)).1, fun k => (hleast k (mem_all k)).2⟩
  constructor
  · exact hnearest
  · intro hf
    cases h : cheapest? distance all with
    | none => exact absurd (cheapest?_eq_none_iff.mp h) (List.cons_ne_nil _ _)
    | some g => rw [(hnearest h).eq hf]

/-- **The suggested function is the nearest one**, if it is near enough. -/
theorem suggest?_eq_some_iff {cs : List Char} {f : Func} :
    suggest? cs = some f ↔ IsNearest (distance cs) f ∧ distance cs f ≤ maxEdits := by
  rw [suggest?, cheapest?_filter, Option.filter_eq_some_iff, cheapest?_all_eq_some_iff,
    decide_eq_true_eq]

/-- Of two functions that are one edit away, `sin` and `sqr`, the first one is suggested. -/
example : suggest? ['s', 'q', 'n'] = some sin := by decide +kernel

/-- A function is suggested if and only if one is near enough. -/
theorem isSome_suggest?_iff {cs : List Char} :
    (suggest? cs).isSome = true ↔ ∃ f, distance cs f ≤ maxEdits := by
  constructor
  · intro h
    obtain ⟨f, hf⟩ := Option.isSome_iff_exists.mp h
    exact ⟨f, (suggest?_eq_some_iff.mp hf).2⟩
  · rintro ⟨f, hf⟩
    rw [← Option.ne_none_iff_isSome, suggest?, ne_eq, cheapest?_eq_none_iff, List.filter_eq_nil_iff]
    intro hall
    exact hall f (mem_all f) (by simpa using hf)

end Func

/-! ## 3. Names without a meaning -/

/-- Every letter is a parameter. -/
theorem Param.isSome_ofLetter? {c : Char} (h : c.isAlpha = true) :
    (ofLetter? c).isSome = true := by
  have hupper : c.toUpper.isUpper = true := by rw [Char.isUpper_toUpper_eq_isAlpha, h]
  have hle : c.toUpper.toNat ≤ 'Z'.toNat := by
    simp only [Char.isUpper, decide_eq_true_eq] at hupper
    exact hupper.2
  have hlt : c.toUpper.toNat - 'A'.toNat < 26 := by
    simp only [Char.reduceToNat] at hle ⊢
    omega
  simp only [ofLetter?, ofIndex?, h, hlt, if_true, dif_pos, Option.isSome_some]

/-- A word is undefined if it is longer than a letter and no spelling of the name of a function. -/
structure IsUndefinedWord (cs : List Char) : Prop where
  isAlpha : ∀ c ∈ cs, c.isAlpha = true
  one_lt_length : 1 < cs.length
  ne_name : ∀ f : Func, lowercase cs ≠ f.name.toList

theorem isUndefinedWord_of_ofName? {cs : List Char} (hne : cs ≠ [])
    (halpha : ∀ c ∈ cs, c.isAlpha = true)
    (h : (SymbolKind.ofName? cs : Option (SymbolKind ν)) = none) : IsUndefinedWord cs := by
  match cs, hne with
  | [c], _ =>
    have hletter := Param.isSome_ofLetter? (halpha c List.mem_cons_self)
    rw [SymbolKind.ofName?, Option.map_eq_none_iff] at h
    exact absurd hletter (by simp [h])
  | c :: d :: cs, _ =>
    refine ⟨halpha, by simp, fun f hname => ?_⟩
    rw [SymbolKind.ofName?_of_one_lt (by simp), Func.ofKeyword?_eq_some_iff.mpr hname] at h
    exact absurd h (by simp)

/-! ## 4. The errors of a formula -/

open Token (Reading readings solids tokenize)

/-- The names of a source and where they stand: a run of letters by itself, and a lone `arc` joined
with the run of letters that comes next, if there is one. -/
inductive IsNameAt (source : String) : List Char → Span → Prop where
  | alone {front back : List Token} {t : Token} (h : solids (tokenize source) = front ++ t :: back)
      (hkind : t.kind = .name) (hbehind : t.isArc = true → ∀ u ∈ back.head?, u.kind ≠ .name) :
      IsNameAt source t.lexeme t.span
  | joined {front back : List Token} {t u : Token}
      (h : solids (tokenize source) = front ++ t :: u :: back) (harc : t.isArc = true)
      (hkind : u.kind = .name) : IsNameAt source (t.lexeme ++ u.lexeme) (t.span.through u.span)

/-- A name has letters, and nothing else. -/
theorem Token.isAlpha_of_mem_solids {source : String} {t : Token}
    (h : t ∈ solids (tokenize source)) (hkind : t.kind = .name) :
    t.lexeme ≠ [] ∧ ∀ c ∈ t.lexeme, c.isAlpha = true := by
  obtain ⟨front, back, -, hlexeme, -⟩ := exists_of_mem_tokenizeFrom (List.mem_filter.mp h).1
  rw [hkind] at hlexeme
  exact ⟨hlexeme.ne_nil, hlexeme.isAlpha.1⟩

theorem IsNameAt.isAlpha {source : String} {cs : List Char} {span : Span}
    (h : IsNameAt source cs span) : cs ≠ [] ∧ ∀ c ∈ cs, c.isAlpha = true := by
  cases h with
  | @alone front back t h hkind hbehind =>
    have ht : t ∈ solids (tokenize source) := by simp [h]
    exact Token.isAlpha_of_mem_solids ht hkind
  | @joined front back t u h harc hkind =>
    have ht : t ∈ solids (tokenize source) := by simp [h]
    have hu : u ∈ solids (tokenize source) := by simp [h]
    obtain ⟨hne, hletters⟩ := Token.isAlpha_of_mem_solids ht (Token.isArc_iff.mp harc).1
    obtain ⟨-, hmore⟩ := Token.isAlpha_of_mem_solids hu hkind
    constructor
    · exact List.append_ne_nil_of_left_ne_nil hne u.lexeme
    · exact List.forall_mem_append.mpr ⟨hletters, hmore⟩

/-- **An error is about a token that is no name, or about a name that means nothing.** -/
theorem Token.Reading.Gives.of_error [Literal ν] {source : String} {r : Reading}
    (hr : r ∈ readings (solids (tokenize source))) {b : Bool} {e : ParseError}
    (h : r.Gives b (.error e : Except ParseError (Symbol ν))) :
    (∃ t ∈ tokenize source, t.kind ≠ .name ∧ e = ⟨.undefinedToken t.text none, t.span⟩) ∨
      ∃ cs span, IsNameAt source cs span ∧
        (SymbolKind.ofName? cs : Option (SymbolKind ν)) = none ∧
        e = ⟨.undefinedToken (String.ofList cs) (Func.suggest? cs), span⟩ := by
  obtain ⟨front, back, hsolids, halong⟩ := exists_append_of_mem_readings hr
  have hundefined (t : Token) (hkind : t.kind = .name) : ParseError.undefined t =
      ⟨.undefinedToken (String.ofList t.lexeme) (Func.suggest? t.lexeme), t.span⟩ := by
    simp [ParseError.undefined, hkind, Token.text]
  cases h with
  | @undefined t along harc hk =>
    by_cases hkind : t.kind = .name
    · right
      refine ⟨t.lexeme, t.span, .alone hsolids hkind (by simp [harc]), ?_, hundefined t hkind⟩
      simpa only [SymbolKind.ofToken?, hkind] using hk
    · left
      have ht : t ∈ solids (tokenize source) := by simp [hsolids]
      exact ⟨t, (List.mem_filter.mp ht).1, hkind, by simp [ParseError.undefined, hkind]⟩
  | @joinedUndefined t u harc hname hnone =>
    right
    obtain ⟨back, rfl⟩ := List.head?_eq_some_iff.mp (by simpa [harc, eq_comm] using halong)
    refine ⟨t.lexeme ++ u.lexeme, t.span.through u.span, .joined hsolids harc hname, ?_, rfl⟩
    have hthree := congrArg List.length (isArc_iff.mp harc).2
    rw [length_lowercase, List.length_cons, List.length_cons] at hthree
    rw [SymbolKind.ofName?_of_one_lt (by rw [List.length_append]; omega), hnone, Option.map_none]
  | @lone t along harc hbehind =>
    right
    obtain rfl : along = back.head? := by simpa [harc] using halong
    obtain ⟨hkind, -⟩ := isArc_iff.mp harc
    exact ⟨t.lexeme, t.span, .alone hsolids hkind fun _ => hbehind,
      SymbolKind.ofName?_of_isArc harc, hundefined t hkind⟩

namespace Lexer

/-- **The suggested function is the nearest one.**  Every error of the lexer is about an undefined
token.  If the token is no name, no function is suggested.  Otherwise it is a run of letters, or a
lone `arc` joined with the run of letters behind it, and not a single letter and in no case the name
of a function.  With the least number of edits that lead from the name of each function to the word
in lowercase, a function is suggested if and only if one is at most two edits away, and then it is
the nearest one, and the first one of these. -/
theorem suggestion_nearest [Literal ν] {source : String} {e : ParseError}
    (h : .error e ∈ (ofSource source : Lexer ν).results) :
    (∃ t ∈ tokenize source, t.kind ≠ .name ∧ e = ⟨.undefinedToken t.text none, t.span⟩) ∨
      ∃ cs suggestion span, e = ⟨.undefinedToken (String.ofList cs) suggestion, span⟩ ∧
        IsNameAt source cs span ∧ IsUndefinedWord cs ∧
        ∃ distance : Func → Nat,
          (∀ f, IsLeast {n | EditsIn n f.name.toList (lowercase cs)} (distance f)) ∧
          (suggestion.isSome = true ↔ ∃ f, distance f ≤ 2) ∧
          ∀ f ∈ suggestion, Func.IsNearest distance f := by
  rcases gives_of_mem_results rfl h with hend | ⟨r, hr, b, hgives⟩
  · exact absurd hend (by simp)
  rcases hgives.of_error hr with hother | ⟨cs, span, hname, hnone, he⟩
  · exact .inl hother
  right
  obtain ⟨hne, halpha⟩ := hname.isAlpha
  refine ⟨cs, Func.suggest? cs, span, he, hname, isUndefinedWord_of_ofName? hne halpha hnone,
    Func.distance cs, ?_, Func.isSome_suggest?_iff, ?_⟩
  · intro f
    exact isLeast_editDistance f.name.toList (lowercase cs)
  · intro f hf
    exact (Func.suggest?_eq_some_iff.mp hf).1

/-- An `arc` and the run of letters behind it are one name, one edit away from a function. -/
theorem suggestion_nearest_arc_sine :
    let word := ['a', 'r', 'c', 's', 'i', 'n', 'e']
    .error ⟨.undefinedToken "arcsine" (some .arcSin), ⟨2, 10⟩⟩ ∈
        (ofSource "$-arc sine" : Lexer Float).results ∧
      ∃ distance : Func → Nat,
        (∀ f, IsLeast {n | EditsIn n f.name.toList word} (distance f)) ∧
        Func.IsNearest distance .arcSin := by
  intro word
  have hmem : .error ⟨.undefinedToken "arcsine" (some .arcSin), ⟨2, 10⟩⟩ ∈
      (ofSource "$-arc sine" : Lexer Float).results := by
    cbv
    exact .tail _ (.tail _ (.head _))
  refine ⟨hmem, ?_⟩
  rcases suggestion_nearest hmem with ⟨t, -, -, he⟩ |
    ⟨cs, suggestion, span, he, -, -, distance, hleast, -, hnearest⟩
  · exact absurd he (by simp)
  · simp only [ParseError.mk.injEq, ParseError.Cause.undefinedToken.injEq] at he
    obtain ⟨⟨hword, rfl⟩, -⟩ := he
    obtain rfl : cs = ['a', 'r', 'c', 's', 'i', 'n', 'e'] := by
      simpa using congrArg String.toList hword.symm
    exact ⟨distance, hleast, hnearest .arcSin rfl⟩

end Lexer

end SymbolicCalculus
