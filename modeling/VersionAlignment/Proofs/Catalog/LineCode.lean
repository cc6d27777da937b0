import VersionAlignment.Proofs.Catalog.Chunks
import VersionAlignment.Proofs.Catalog.Members

/-!
# The code of lines of an edit

What stands outside the quotes of a line can be told piece by piece, as long as no quote is open
between the pieces. The lead of a member, for one, leaves no quote and no bracket open; so an array
that starts on a line has its first bracket behind the lead, and the line on which it is closed has
a closing bracket.

## Results

* `codeFrom_append`: the code of pieces that stand one after the other.
* `ClosesAtEnd.bracket_mem`: an array is closed by a bracket on its last line.
-/

set_option autoImplicit false

namespace VersionAlignment.Artifact.Catalog

open Text Json Json.Reading

variable {q : QuoteState} {s t : List Char} {opening closing : Char}

/-- How a scan of quotes stands behind a text. -/
def quotesBehind (q : QuoteState) (s : List Char) : QuoteState := s.foldl nextQuoteState q

theorem quotesBehind_append (q : QuoteState) (s t : List Char) :
    quotesBehind q (s ++ t) = quotesBehind (quotesBehind q s) t := List.foldl_append

/-- The scan of quotes stands where the machine does, behind a text as before it. -/
theorem quoteState_of_run {σ τ : Reading} (hrun : σ.run s = some τ) :
    quoteState τ.mode = quotesBehind (quoteState σ.mode) s := by
  induction s generalizing σ with
  | nil =>
    cases hrun
    rfl
  | cons c s ih =>
    obtain ⟨ρ, hstep, hmore⟩ := run_cons_eq_some.1 hrun
    rw [ih hmore, quoteState_of_step hstep]
    rfl

/-- **The code of pieces** is that of each of them, scanned from where the piece before it ends. -/
theorem codeFrom_append (q : QuoteState) (i : Nat) (s t : List Char) :
    codeFrom q i (s ++ t) = codeFrom q i s ++ codeFrom (quotesBehind q s) (i + s.length) t := by
  induction s generalizing q i with
  | nil => cases q <;> rfl
  | cons c s ih =>
    have hlength : i + 1 + s.length = i + (c :: s).length := by
      rw [List.length_cons]
      omega
    rw [List.cons_append, codeFrom_cons, codeFrom_cons, ih, List.append_assoc, hlength]
    rfl

theorem map_snd_codeFrom (q : QuoteState) (i j : Nat) (s : List Char) :
    (codeFrom q i s).map Prod.snd = (codeFrom q j s).map Prod.snd := by
  induction s generalizing q i j with
  | nil => cases q <;> rfl
  | cons c s ih =>
    rw [codeFrom_cons, codeFrom_cons, List.map_append, List.map_append, ih _ (i + 1) (j + 1)]
    split <;> rfl

theorem quotesBehind_of_notMem (hs : '"' ∉ s) : quotesBehind .outside s = .outside := by
  induction s with
  | nil => rfl
  | cons c s ih =>
    simp only [List.mem_cons, not_or] at hs
    rw [quotesBehind, List.foldl_cons, nextQuoteState, if_neg (Ne.symm hs.1)]
    exact ih hs.2

theorem codeFrom_inside (i : Nat) (hs : ∀ c ∈ s, c ≠ '"' ∧ c ≠ '\\') :
    codeFrom .inside i s = [] ∧ quotesBehind .inside s = .inside := by
  induction s generalizing i with
  | nil => exact ⟨rfl, rfl⟩
  | cons c s ih =>
    rw [List.forall_mem_cons] at hs
    have hnext : nextQuoteState .inside c = .inside := by
      rw [nextQuoteState, if_neg hs.1.2, if_neg hs.1.1]
    obtain ⟨hcode, hbehind⟩ := ih (i + 1) hs.2
    rw [codeFrom_cons, quotesBehind, List.foldl_cons, hnext]
    exact ⟨hcode, hbehind⟩

/-- A text in quotes shows as its first quote. -/
theorem codeFrom_quotes (i : Nat) (hs : ∀ c ∈ s, c ≠ '"' ∧ c ≠ '\\') :
    codeFrom .outside i ('"' :: s ++ ['"']) = [(i, '"')] ∧
      quotesBehind .outside ('"' :: s ++ ['"']) = .outside := by
  obtain ⟨hcode, hbehind⟩ := codeFrom_inside (i + 1) hs
  have hopens : nextQuoteState .outside '"' = .inside := rfl
  rw [List.cons_append, codeFrom_cons, quotesBehind, List.foldl_cons, hopens, codeFrom_append,
    hcode, hbehind, ← quotesBehind, quotesBehind_append, hbehind]
  exact ⟨rfl, rfl⟩

theorem ne_of_isPlain (h : IsPlain s) : ∀ c ∈ s, c ≠ '"' ∧ c ≠ '\\' := fun c hc =>
  (h c hc).2

/-! ## Depths -/

theorem depthChange_append (hs : quotesBehind .outside s = .outside) :
    depthChange opening closing (s ++ t) =
      depthChange opening closing s + depthChange opening closing t := by
  rw [depthChange, code, codeFrom_append, hs, List.map_append, totalDepth_append,
    map_snd_codeFrom .outside (0 + s.length) 0]
  rfl

theorem totalDepth_nonneg (hs : closing ∉ s) : 0 ≤ totalDepth opening closing s := by
  induction s with
  | nil => exact Int.le_refl 0
  | cons c s ih =>
    simp only [List.mem_cons, not_or] at hs
    have := ih hs.2
    rw [totalDepth, depthStep, if_neg (Ne.symm hs.1)]
    split <;> omega

theorem mem_of_mem_codeFrom {i : Nat} {c : Char}
    (h : c ∈ (codeFrom q i s).map Prod.snd) : c ∈ s := by
  induction s generalizing q i with
  | nil => cases q <;> cases h
  | cons d s ih =>
    rw [codeFrom_cons, List.map_append, List.mem_append] at h
    rcases h with h | h
    · split at h
      · rw [List.mem_singleton.1 h]
        exact List.mem_cons_self
      · cases h
    · exact List.mem_cons_of_mem _ (ih h)

/-- Without closing brackets the depth does not fall. -/
theorem depthChange_nonneg (hs : closing ∉ s) : 0 ≤ depthChange opening closing s :=
  totalDepth_nonneg fun h => hs (mem_of_mem_codeFrom h)

theorem totalDepth_eq_zero (hs : ∀ c ∈ s, c ≠ opening ∧ c ≠ closing) :
    totalDepth opening closing s = 0 := by
  induction s with
  | nil => rfl
  | cons c s ih =>
    rw [List.forall_mem_cons] at hs
    rw [totalDepth, ih hs.2, depthStep, if_neg hs.1.1, if_neg hs.1.2]
    rfl

/-- Without brackets outside of quotes the depth stays. -/
theorem depthChange_eq_zero_of_code (hs : ∀ x ∈ code s, x.2 ≠ opening ∧ x.2 ≠ closing) :
    depthChange opening closing s = 0 :=
  totalDepth_eq_zero (List.forall_mem_map.2 hs)

theorem depthChange_eq_zero (hs : ∀ c ∈ s, c ≠ opening ∧ c ≠ closing) :
    depthChange opening closing s = 0 :=
  totalDepth_eq_zero fun c hc => hs c (mem_of_mem_codeFrom hc)

theorem depthChange_quotes (hs : ∀ c ∈ s, c ≠ '"' ∧ c ≠ '\\') :
    depthChange opening closing ('"' :: s ++ ['"']) = depthStep opening closing '"' := by
  rw [depthChange, code, (codeFrom_quotes 0 hs).1]
  simp [totalDepth]

/-! ## Balanced texts -/

/-- The text leaves no quote and no bracket open. -/
structure Balanced (s : List Char) : Prop where
  quotes : quotesBehind .outside s = .outside
  depth : depthChange '[' ']' s = 0

theorem Balanced.append (hs : Balanced s) (ht : Balanced t) : Balanced (s ++ t) where
  quotes := by rw [quotesBehind_append, hs.quotes, ht.quotes]
  depth := by rw [depthChange_append hs.quotes, hs.depth, ht.depth, Int.zero_add]

theorem balanced_of_notMem (hs : ∀ c ∈ s, c ≠ '"' ∧ c ≠ '[' ∧ c ≠ ']') : Balanced s where
  quotes := quotesBehind_of_notMem fun h => (hs _ h).1 rfl
  depth := depthChange_eq_zero fun c hc => (hs c hc).2

theorem balanced_quotes (hs : ∀ c ∈ s, c ≠ '"' ∧ c ≠ '\\') : Balanced ('"' :: s ++ ['"']) where
  quotes := (codeFrom_quotes 0 hs).2
  depth := depthChange_quotes hs

theorem ne_of_isBlank {c d : Char} (h : Text.isBlank c = true) (hd : Text.isBlank d = false) :
    c ≠ d := by
  rintro rfl
  rw [h] at hd
  cases hd

theorem balanced_of_isBlank (hs : ∀ c ∈ s, Text.isBlank c = true) : Balanced s :=
  balanced_of_notMem fun c hc => ⟨ne_of_isBlank (hs c hc) (by decide),
    ne_of_isBlank (hs c hc) (by decide), ne_of_isBlank (hs c hc) (by decide)⟩

/-- The lead of a member leaves no quote and no bracket open. -/
theorem Lead.balanced {name : String} {lead : List Char} (l : Lead name lead)
    (hname : IsPlain name.toList) : Balanced lead := by
  obtain ⟨before, between, behind, hbefore, hbetween, hbehind, rfl⟩ := l
  have hcolon : Balanced [':'] := balanced_of_notMem (by simp)
  exact (balanced_of_isBlank hbefore).append ((balanced_quotes (ne_of_isPlain hname)).append
    ((balanced_of_isBlank hbetween).append (hcolon.append (balanced_of_isBlank hbehind))))

theorem depthChange_opening {lead : List Char} (l : Lead "options" lead) (s : List Char) :
    depthChange '[' ']' (lead ++ '[' :: s) = 1 + depthChange '[' ']' s := by
  have hlead := l.balanced (by decide)
  have hbracket : depthChange '[' ']' ['['] = 1 := rfl
  rw [depthChange_append hlead.quotes, hlead.depth, ← List.singleton_append, depthChange_append rfl,
    hbracket, Int.zero_add]

/-! ## The bracket that closes an array -/

theorem ClosesAtEnd.ne_nil {depth : Int} {ls : List (List Char)} (h : ClosesAtEnd depth ls) :
    ls ≠ [] := by
  rintro rfl
  exact h

/-- Open brackets are closed by a bracket on the last line. -/
theorem ClosesAtEnd.bracket_mem_of_pos {depth : Int} {ls : List (List Char)} (hdepth : 0 < depth)
    (h : ClosesAtEnd depth ls) : ']' ∈ ls.getLast h.ne_nil := by
  fun_induction ClosesAtEnd depth ls with
  | case1 => exact h.elim
  | case2 depth line =>
    by_contra hnone
    rw [List.getLast_singleton] at hnone
    have hline : 0 ≤ depthChange '[' ']' line := depthChange_nonneg hnone
    rw [ClosesAtEnd] at h
    omega
  | case3 depth line next ls ih => exact ih h.1 h.2

/-- An array is closed by a bracket on its last line, behind the one that opens it. -/
theorem ClosesAtEnd.bracket_mem {line lead rest : List Char} {taken : List (List Char)}
    (h : ClosesAtEnd 0 (line :: taken)) (l : Lead "options" lead)
    (hline : line = lead ++ '[' :: rest) : ']' ∈ (line :: taken).getLast h.ne_nil := by
  cases taken with
  | nil =>
    rw [List.getLast_singleton, hline, List.mem_append, List.mem_cons]
    by_contra hnone
    simp only [not_or] at hnone
    have hrest : 0 ≤ depthChange '[' ']' rest := depthChange_nonneg hnone.2.2
    have hopened := depthChange_opening l rest
    rw [← hline] at hopened
    have hclosed : 0 + depthChange '[' ']' line ≤ 0 := h
    omega
  | cons next taken =>
    rw [List.getLast_cons (List.cons_ne_nil _ _)]
    exact ClosesAtEnd.bracket_mem_of_pos h.1 h.2

end VersionAlignment.Artifact.Catalog
