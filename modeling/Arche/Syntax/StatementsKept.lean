import Arche.Syntax.BodyShape
import Arche.Syntax.TokensKept

/-!
# Which texts keep their statements

In the grammar `;` is a statement of its own. `parse_statement` returns `0` for
it and the loops over statements answer with `synchronize`, which consumes the
next token whatever it is. Where the grammar's reading of a text has no empty
statement without a partner, the code makes the same tree, and every body in it
is in order.
-/

namespace Arche.Syntax

open P Arche.Syntax.Parser MoveLemmas

section

variable {decl : P SyntaxNodeKind} {k count c : Nat} {s f : Parser}

theorem programRun_ended {m : Mode} (h : programRun decl m none k count s = some (c, f)) :
    Reach s f ∧ f.current.kind = .eof := by
  induction k generalizing count s with
  | zero => cases h
  | succ k ih =>
    unfold programRun at h
    split at h
    · next heof =>
      cases h
      exact ⟨Follows.refl false _, heof⟩
    simp only [Option.any_none, Bool.false_eq_true, if_false] at h
    split at h
    · next t ht =>
      split at h
      · exact ⟨((declNode decl).reach ht).trans (ih h).1, (ih h).2⟩
      · cases h
    · cases h

/-- Where the grammar's reading of a program is clean, the code's reading is the same. -/
theorem programRun_reads (h : programRun decl .grammar none k count s = some (c, f))
    (hc : f.Clean) : programRun decl .code none k count s = some (c, f) := by
  induction k generalizing count s with
  | zero => cases h
  | succ k ih =>
    unfold programRun at h ⊢
    split at h
    · next heof =>
      simp only [heof, if_true]
      exact h
    next hne =>
    simp only [hne, if_false, Option.any_none, Bool.false_eq_true] at h ⊢
    split at h
    · next t ht =>
      split at h
      · next hlt =>
        rw [(declNode decl).reads ht (Clean.of_follows (programRun_ended h).1 hc)]
        simp only [hlt, if_true]
        exact ih h
      · cases h
    · cases h

/-- The loop without a cap that reads few declarations is the loop with the cap. -/
theorem programRun_under_cap {m : Mode} {l : Nat} (h : programRun decl m none k count s = some (c, f))
    (hl : c ≤ l) : programRun decl m (some l) k count s = some (c, f) := by
  induction k generalizing count s with
  | zero => cases h
  | succ k ih =>
    unfold programRun at h ⊢
    split at h
    · next heof =>
      simp only [heof, if_true]
      exact h
    next hne =>
    simp only [hne, if_false, Option.any_none, Bool.false_eq_true] at h ⊢
    split at h
    · next t ht =>
      split at h
      · next hlt =>
        have hcount := programRun_count_le h
        have hcap : ¬ (some l).any (count + 1 > ·) = true := by
          simp only [Option.any_some, decide_eq_true_eq]
          omega
        simp only [hcap, hlt, if_true, Bool.false_eq_true, if_false]
        exact ih h
      · cases h
    · cases h

theorem programRun_shaped [hd : Tame false 0 decl] [hr : Returns decl isPlainKind]
    (h : programRun decl .grammar none k count s = some (c, f)) (hc : f.Clean) :
    Keeps false 0 s f := by
  induction k generalizing count s with
  | zero => cases h
  | succ k ih =>
    unfold programRun at h
    split at h
    · cases h
      exact Keeps.refl _ _ _
    simp only [Option.any_none, Bool.false_eq_true, if_false] at h
    split at h
    · next t ht =>
      split at h
      · have htame : Tame false 0 (declNode decl) := inferInstance
        exact (htame.out ht (Clean.of_follows (programRun_ended h).1 hc)).trans (ih h)
      · cases h
    · cases h

end

/-- The grammar's reading of a text, with the number of its declarations. -/
def grammarReading (src : List Char) : Option (Nat × Parser) :=
  parseWith (sufficientDepth src) .grammar none src

/-- If the grammar derives a text, and no empty statement in it stands without a partner, the
code accepts the text and makes the grammar's tree of it: every body has all its statements,
one node each, and nothing else but comments and `;`, and no token is missing. -/
theorem statements_kept {src : List Char} {c : Nat} {g : Parser}
    (hg : grammarReading src = some (c, g)) (herr : g.errors = []) (hlone : g.loneEmpty = false)
    (hcap : c ≤ maxDeclLoop) (hfine : Fine (tokensOf src)) :
    ∃ r, parseSource src = some r ∧ r.errors = [] ∧ r.children = g.items ∧
      shapedAll r.children = true ∧ leavesOf r.children = (tokensOf src).map Token.leaf32 := by
  have hclean : g.Clean := ⟨herr, hlone⟩
  have hcode : parseWith (sufficientDepth src) .code (some maxDeclLoop) src = some (c, g) :=
    programRun_under_cap (programRun_reads hg hclean) hcap
  obtain ⟨hreach, heof⟩ := programRun_ended hg
  obtain ⟨hcore, hblame⟩ := AccountLemmas.core_create src
  obtain ⟨hcg, hbg⟩ := hreach.reach_core hcore hblame
  have hhad : g.hadError = false := by
    cases hh : g.hadError with
    | false => rfl
    | true => exact absurd hfine ((hbg hh).resolve_left (by simp [herr]))
  have hstart : Good false 0 (Parser.create src) := by
    have hadv : Keeps false 0 (Parser.init src) (Parser.create src) := keeps_advance (by simp)
    have htidy : Tidy false (Parser.init src).items := fun h => absurd h Bool.false_ne_true
    have hshaped : ∀ e ∈ (Parser.init src).items, e.shaped = true :=
      fun e he => absurd he List.not_mem_nil
    exact (hadv ⟨Nat.zero_le _, htidy, hshaped⟩).1
  have htame : Tame false 0 (knot (sufficientDepth src)).decl := inferInstance
  have hshaped : ∀ e ∈ g.items, e.shaped = true := (programRun_shaped hg hclean hstart).1.shaped
  refine ⟨⟨g.errors, g.items, g.hadError⟩, ?_, herr, rfl, shapedAll_iff.mpr hshaped,
    (keeps_of_unflagged hcg heof hhad).1⟩
  unfold parseSource
  rw [hcode]
  rfl

/-- A function with a pair of empty statements in front. -/
def pairedEmpties : List Char := "f :: func() -> int \x7b ;; return 1; \x7d".toList

theorem statements_kept_paired :
    ∃ r, parseSource pairedEmpties = some r ∧ r.errors = [] ∧ shapedAll r.children = true := by
  have hread : ((grammarReading pairedEmpties).map fun r =>
      (r.2.errors.isEmpty, r.2.loneEmpty, decide (r.1 ≤ maxDeclLoop))) = some (true, false, true) := by
    decide +kernel
  obtain ⟨⟨c, g⟩, hg, he⟩ := Option.map_eq_some_iff.mp hread
  have herr : g.errors = [] := by simpa using (Prod.mk.inj he).1
  have hlone : g.loneEmpty = false := (Prod.mk.inj (Prod.mk.inj he).2).1
  have hcap : c ≤ maxDeclLoop := of_decide_eq_true (Prod.mk.inj (Prod.mk.inj he).2).2
  have hfine : Fine (tokensOf pairedEmpties) := by decide +kernel
  obtain ⟨r, hr, hacc, -, hshaped, -⟩ := statements_kept hg herr hlone hcap hfine
  exact ⟨r, hr, hacc, hshaped⟩

/-- Behind a lone empty statement the loop skips the next statement up to its `;`: its tokens
are left lying in the body. -/
theorem not_shaped_of_accepted :
    ¬ ∀ src r, parseSource src = some r → r.errors = [] → shapedAll r.children = true := by
  intro h
  have hflat : ((parseSource "f :: func() -> int \x7b ; return 1; \x7d".toList).map fun r =>
      (r.errors.isEmpty, shapedAll r.children)) = some (true, false) := by
    decide +kernel
  obtain ⟨r, hr, he⟩ := Option.map_eq_some_iff.mp hflat
  have hshaped := h _ r hr (by simpa using (Prod.mk.inj he).1)
  rw [(Prod.mk.inj he).2] at hshaped
  cases hshaped

end Arche.Syntax
