/-
# Pieces of a formula

A piece of a formula, from the start of one of its symbols to the end of the same or a later one,
can be read as a formula of its own.  The symbols that it gives are those that stand there, unless
the first of them is an infix operator (`Lexer.exists_excerpt`): what has been read in front of a
piece matters for nothing but a minus sign at its start.

Readings do not depend on the place of their tokens (`Token.Reading.Gives.moved`), the tokens of
readings are read by the same readings again (`Token.Reading.GiveSymbols.readings_flatMap`), and a
piece of a text has the tokens that stand there (`Token.exists_piece`).
-/
import SymbolicCalculus.Proofs.Lexing.MaximalMunch

namespace SymbolicCalculus

universe u

variable {ν : Type u}

open Token (Reading readings solids)

/-! ## 1. The place of tokens does not matter -/

theorem Span.through_eq_through {a b c d : Span} :
    a.through b = c.through d ↔ a.start = c.start ∧ b.stop = d.stop := by
  simp [through]

/-- The symbol, as many bytes further on. -/
def Symbol.moved (n : Nat) (s : Symbol ν) : Symbol ν :=
  { s with span := ⟨n + s.span.start, n + s.span.stop⟩ }

namespace Token

/-- The reading, as many bytes further on. -/
def Reading.moved (n : Nat) (r : Reading) : Reading :=
  ⟨r.token.moved n, r.along.map (Token.moved n)⟩

theorem solids_map_moved (n : Nat) (ts : List Token) :
    solids (ts.map (moved n)) = (solids ts).map (moved n) := by
  rw [solids, List.filter_map]
  rfl

theorem readings_map_moved (n : Nat) (ts : List Token) :
    readings (ts.map (moved n)) = (readings ts).map (Reading.moved n) := by
  induction ts using readings.induct with
  | case1 => rfl
  | case2 t => rfl
  | case3 t u ts harc ih =>
    rw [List.map_cons, List.map_cons, readings_of_isArc harc,
      readings_of_isArc (t := t.moved n) harc, ih, List.map_cons]
    rfl
  | case4 t u ts harc ih =>
    have harc : t.isArc = false := by simpa using harc
    rw [List.map_cons, readings_of_not_isArc harc, readings_of_not_isArc (t := t.moved n) harc, ih,
      List.map_cons]
    rfl

end Token

section Readings

variable [Literal ν]

namespace Token.Reading

/-- A reading gives its symbol wherever its tokens stand. -/
theorem Gives.moved {n : Nat} {b : Bool} {r : Reading} {s : Symbol ν}
    (h : Gives b (r.moved n) (.ok s)) : ∃ s' : Symbol ν, Gives b r (.ok s') ∧ s'.moved n = s := by
  obtain ⟨t, along⟩ := r
  cases along with
  | none =>
    cases h with
    | symbol harc hk => exact ⟨_, .symbol harc hk, rfl⟩
  | some u =>
    cases h with
    | symbol harc hk => exact ⟨_, .symbol harc hk, rfl⟩
    | joined harc hname hf => exact ⟨_, .joined harc hname hf, rfl⟩

/-- What is read as anything but an infix operator is read alike where an operand is expected. -/
theorem Gives.of_ne_binary {b : Bool} {r : Reading} {s : Symbol ν} (h : Gives b r (.ok s))
    (hs : ∀ op, s.kind ≠ .binary op) : Gives true r (.ok s) := by
  cases h with
  | joined harc hname hf => exact .joined harc hname hf
  | @symbol t along k harc hk =>
    refine .symbol harc ?_
    cases b with
    | true => exact hk
    | false =>
      -- only the meaning of a minus sign depends on what is expected
      unfold SymbolKind.ofToken? at hk ⊢
      cases hkind : t.kind with
      | sub =>
        simp only [hkind, Bool.false_eq_true, if_false, Option.some.injEq] at hk
        exact absurd hk.symm (hs .sub)
      | _ => simpa only [hkind] using hk

/-- A symbol reaches from the first to the last of the tokens that its reading uses up. -/
theorem Gives.exists_ends {ts : List Token} {b : Bool} {r : Reading} {s : Symbol ν}
    (h : Gives b r (.ok s)) (hr : r ∈ readings ts) :
    ∃ first last, r.tokens.head? = some first ∧ r.tokens.getLast? = some last ∧
      s.span = first.span.through last.span := by
  cases h with
  | @symbol t along k harc hk =>
    obtain rfl := along_eq_none hr harc
    exact ⟨t, t, rfl, rfl, rfl⟩
  | @joined t u f harc hname hf => exact ⟨t, u, rfl, rfl, rfl⟩

namespace GiveSymbols

variable {b b' : Bool} {n : Nat} {rs : List Reading} {s : Symbol ν} {ss : List (Symbol ν)}

/-- Readings give their symbols wherever the tokens stand. -/
theorem moved (h : GiveSymbols b (rs.map (Reading.moved n)) ss b') :
    ∃ ss' : List (Symbol ν), GiveSymbols b rs ss' b' ∧ ss'.map (Symbol.moved n) = ss := by
  induction rs generalizing b ss with
  | nil =>
    cases h
    exact ⟨[], .nil _, rfl⟩
  | cons r rs ih =>
    cases h with
    | cons hr hrest =>
      obtain ⟨s', hr', rfl⟩ := hr.moved
      obtain ⟨ss', hrest', rfl⟩ := ih hrest
      exact ⟨s' :: ss', .cons hr' hrest', rfl⟩

/-- Unless the first symbol is an infix operator, the symbols are the same where an operand is
expected. -/
theorem of_ne_binary (h : GiveSymbols b rs (s :: ss) b') (hs : ∀ op, s.kind ≠ .binary op) :
    GiveSymbols true rs (s :: ss) b' := by
  cases h with
  | cons hr hrest => exact .cons (hr.of_ne_binary hs) hrest

variable {ts : List Token} (hrs : rs ⊆ readings ts)

include hrs

/-- **The tokens of readings that give symbols are read by the same readings again.** -/
theorem readings_flatMap (h : GiveSymbols b rs ss b') :
    readings (rs.flatMap Reading.tokens) = rs := by
  induction h with
  | nil b => rfl
  | @cons b b' r rs s ss hr _ ih =>
    obtain ⟨hmem, hrest⟩ := List.cons_subset.mp hrs
    rw [List.flatMap_cons]
    cases hr with
    | symbol harc hk =>
      obtain rfl := along_eq_none hmem harc
      exact (readings_of_not_isArc harc _).trans (congrArg _ (ih hrest))
    | joined harc hname hf => exact (readings_of_isArc harc _ _).trans (congrArg _ (ih hrest))

/-- Symbols reach from the first to the last of the tokens of their readings. -/
theorem exists_ends {a z : Symbol ν} (h : GiveSymbols b rs ss b') (hfirst : ss.head? = some a)
    (hlast : ss.getLast? = some z) :
    ∃ first last, (rs.flatMap Reading.tokens).head? = some first ∧
      (rs.flatMap Reading.tokens).getLast? = some last ∧
      a.span.through z.span = first.span.through last.span := by
  induction h generalizing a with
  | nil b => exact absurd hfirst (by simp)
  | @cons b b' r rs s ss hr hgive ih =>
    obtain ⟨hmem, hrest⟩ := List.cons_subset.mp hrs
    obtain ⟨first, last, hhead, hend, hspan⟩ := hr.exists_ends hmem
    obtain rfl : s = a := Option.some.inj hfirst
    rw [List.flatMap_cons]
    cases ss with
    | nil =>
      cases hgive
      obtain rfl : s = z := by simpa using hlast
      exact ⟨first, last, by simp [hhead], by simpa using hend, by rw [hspan]; rfl⟩
    | cons t ss =>
      obtain ⟨_, last', -, hend', hspan'⟩ := ih hrest rfl (by simpa using hlast)
      refine ⟨first, last', by simp [hhead], by rw [List.getLast?_append, hend']; rfl, ?_⟩
      rw [Span.through_eq_through] at hspan' ⊢
      exact ⟨by rw [hspan]; rfl, hspan'.2⟩

end GiveSymbols

end Token.Reading

/-! ## 2. Pieces are read as what stands there -/

/-- A list can be cut in front of one and behind another of the elements that pass a test.  Those of
the piece that pass it are the ones from the first to the last. -/
theorem exists_middle_of_filter {α : Type u} {p : α → Bool} {xs front middle back : List α}
    {first last : α} (h : xs.filter p = front ++ (middle ++ back))
    (hfirst : middle.head? = some first) (hlast : middle.getLast? = some last) :
    ∃ pre mid post, xs = pre ++ (mid ++ post) ∧ mid.filter p = middle ∧
      mid.head? = some first ∧ mid.getLast? = some last := by
  obtain ⟨pre, ys, rfl, -, hys⟩ := List.filter_eq_append_iff.mp h
  obtain ⟨inside, post, rfl, rfl, -⟩ := List.filter_eq_append_iff.mp hys
  -- what does not pass is cut off in front of the first one, and then behind the last one
  rw [List.head?_filter, List.find?_eq_some_iff_append] at hfirst
  obtain ⟨-, skipped, inside, rfl, hskipped⟩ := hfirst
  have hnil : skipped.filter p = [] := List.filter_eq_nil_iff.mpr (by simpa using hskipped)
  have hinside : (skipped ++ first :: inside).filter p = (first :: inside).filter p := by
    rw [List.filter_append, hnil, List.nil_append]
  rw [hinside, List.getLast?_filter, List.find?_eq_some_iff_append] at hlast
  obtain ⟨-, skipped', mid, hmid, hskipped'⟩ := hlast
  have hnil' : skipped'.reverse.filter p = [] :=
    List.filter_eq_nil_iff.mpr (by simpa using hskipped')
  have hcut : first :: inside = mid.reverse ++ [last] ++ skipped'.reverse := by
    simpa using congrArg List.reverse hmid
  refine ⟨pre ++ skipped, mid.reverse ++ [last], skipped'.reverse ++ post, ?_, ?_, ?_, by simp⟩
  · rw [hcut]
    simp only [List.append_assoc]
  · rw [hinside, hcut, List.filter_append (mid.reverse ++ [last]), hnil', List.append_nil]
  · have hhead := congrArg List.head? hcut
    rwa [List.head?_append_of_ne_nil _ (by simp), eq_comm] at hhead

/-- **A piece of a formula is read as what stands there**, unless it begins with an infix
operator. -/
theorem Lexer.exists_excerpt {source : String} {front ts : List (Symbol ν)} {a z : Symbol ν}
    {tail : Stream ν} (hend : ∀ s ∈ front ++ a :: ts, s.kind.isEnd = false)
    (h : (ofSource source : Lexer ν).results = (front ++ a :: ts).map .ok ++ tail)
    (ha : ∀ op, a.kind ≠ .binary op) (hlast : (a :: ts).getLast? = some z) :
    ∃ piece : String, (a.span.through z.span).Marks source piece.toList ∧
      (ofSource piece : Lexer ν).IsClean ∧
      (ofSource piece : Lexer ν).symbols.map (Symbol.moved a.span.start) = a :: ts := by
  rw [results_ofSource] at h
  obtain ⟨rs, back, b', hreadings, hgive, -⟩ := Stream.exists_giveSymbols hend h
  obtain ⟨before, inside, b, rfl, -, hinside⟩ := hgive.exists_append
  have hmem : inside ⊆ readings (solids (Token.tokenize source)) := by
    rw [hreadings, List.append_assoc]
    exact fun r hr => List.mem_append_right _ (List.mem_append_left _ hr)
  obtain ⟨first, last, hhead, htail, hspan⟩ := hinside.exists_ends hmem rfl hlast
  have hsolids : solids (Token.tokenize source) = before.flatMap Reading.tokens ++
      (inside.flatMap Reading.tokens ++ back.flatMap Reading.tokens) := by
    rw [← Token.flatMap_tokens_readings (solids _), hreadings, List.append_assoc,
      List.flatMap_append, List.flatMap_append]
  obtain ⟨pre, mid, post, htokens, hmid, hfirst, hend'⟩ :=
    exists_middle_of_filter hsolids hhead htail
  obtain ⟨piece, hmarks, hpiece⟩ := Token.exists_piece htokens hfirst hend'
  rw [← (Span.through_eq_through.mp hspan).1] at hpiece
  have hmoved : (readings (solids (Token.tokenize piece))).map (Reading.moved a.span.start) =
      inside := by
    rw [← Token.readings_map_moved, ← Token.solids_map_moved, hpiece, solids, hmid,
      hinside.readings_flatMap hmem]
  obtain ⟨ss, hss, hmap⟩ := (hmoved ▸ hinside.of_ne_binary ha).moved
  have hresults : (ofSource piece : Lexer ν).results =
      ss.map .ok ++ [.ok ⟨.endOfInput, .empty piece.utf8ByteSize⟩] := by
    rw [results_ofSource, ← List.append_nil (readings _), hss.ofReadings_append]
    rfl
  obtain ⟨hclean, hsymbols⟩ := isClean_of_results rfl hss.isEnd_eq_false hresults
  exact ⟨piece, hspan ▸ hmarks, hclean, by rw [hsymbols, hmap]⟩

end Readings

end SymbolicCalculus
