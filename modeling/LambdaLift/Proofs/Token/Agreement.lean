import LambdaLift.Proofs.Token.Tiling

/-!
# Texts with the same tokens

* `Lexer.nth text k`: the tokens of a text, one after another, with nothing read again.
* `SameTokens text text'`: the tokens of both texts look alike to the grammar, one by one, and
  nothing is wrong with them. White space and comments may differ.
* `Texts`: two texts with the same tokens.
* `SamePlace ts o o'`: one token starts at `o` in the first text and at `o'` in the second. Such
  offsets compare alike in both texts (`SamePlace.le_iff`, `SamePlace.eq_iff`), since only the end of
  a text has no width.
-/

namespace LambdaLift

namespace Lexer

/-- The lexer on the token of a text that has `k` tokens before it. -/
def nth (text : String) (k : Nat) : Lexer :=
  scan^[k + 1] (ofText text).skipShebang

/-- What the grammar looks at is the same for both tokens. -/
structure SameToken (l l' : Lexer) : Prop where
  kind : l.kind = l'.kind
  value : l.value = l'.value
  number : l.number = l'.number
  text : l.text = l'.text
  lineBreakBefore : l.lineBreakBefore = l'.lineBreakBefore

instance (l l' : Lexer) : Decidable (SameToken l l') :=
  decidable_of_iff (l.kind = l'.kind ∧ l.value = l'.value ∧ l.number = l'.number ∧
      l.text = l'.text ∧ l.lineBreakBefore = l'.lineBreakBefore)
    ⟨fun ⟨h₁, h₂, h₃, h₄, h₅⟩ => ⟨h₁, h₂, h₃, h₄, h₅⟩,
      fun h => ⟨h.kind, h.value, h.number, h.text, h.lineBreakBefore⟩⟩

variable {text : String} {j k : Nat}

theorem nth_succ (text : String) (k : Nat) : nth text (k + 1) = (nth text k).scan :=
  Function.iterate_succ_apply' ..

theorem onToken_nth (text : String) (k : Nat) : (nth text k).OnToken text := by
  induction k with
  | zero => exact onToken_scan (within_ofText text).skipShebang.here
  | succ k ih =>
    rw [nth_succ]
    exact ih.scan

theorem start_le_nth_succ (text : String) (k : Nat) :
    (nth text k).start.offset ≤ (nth text (k + 1)).start.offset := by
  rw [nth_succ]
  exact (onToken_nth text k).reaches.offset_le.trans (here_le_scan_start _).1

theorem start_le_nth (h : j ≤ k) : (nth text j).start.offset ≤ (nth text k).start.offset := by
  induction k, h using Nat.le_induction with
  | base => exact Nat.le_refl _
  | succ k _ ih => exact ih.trans (start_le_nth_succ text k)

/-- A token that is not the end of the text takes a character. -/
theorem remaining_nth_succ_lt (hkind : (nth text k).kind ≠ .endOfFile) :
    (nth text (k + 1)).start.rest.length < (nth text k).start.rest.length := by
  rw [nth_succ]
  exact Nat.lt_of_le_of_lt (here_le_scan_start _).2 ((onToken_nth text k).width hkind)

theorem start_lt_nth_succ (hkind : (nth text k).kind ≠ .endOfFile) :
    (nth text k).start.offset < (nth text (k + 1)).start.offset := by
  rw [nth_succ]
  have hk := onToken_nth text k
  exact Nat.lt_of_lt_of_le (hk.reaches.offset_lt (hk.width hkind)) (here_le_scan_start _).1

/-- Tokens start one after another, and no token starts after the end of the text. -/
theorem start_le_iff : (nth text j).start.offset ≤ (nth text k).start.offset ↔
    j ≤ k ∨ (nth text k).kind = .endOfFile := by
  constructor
  · intro hle
    by_contra hlate
    rw [not_or, Nat.not_le] at hlate
    have hlt := start_lt_nth_succ hlate.2
    have hle' : (nth text (k + 1)).start.offset ≤ _ := start_le_nth hlate.1
    omega
  · rintro (hjk | hend)
    · exact start_le_nth hjk
    · have hj := (onToken_nth text j).start.offset_add
      have hk := (onToken_nth text k).start.offset_add
      rw [(onToken_nth text k).ends hend] at hk
      simp only [byteLength] at hk
      omega

/-- Past the end of the text nothing changes any more. -/
theorem scan_of_rest_eq_nil {l : Lexer} (h : l.here.rest = []) :
    l.scan = ⟨l.here, l.here, .endOfFile, "", Float.ofBits 0, {}, l.reports⟩ := by
  have hskip : Trivia.skip l.here = { stop := l.here } := by
    rw [Trivia.skip.eq_def]
    split <;> simp_all
  have hread : Lexeme.read l.here = { kind := .endOfFile, stop := l.here } := by
    rw [Lexeme.read, h]
  simp [scan, hskip, hread, TokenFlags.or]

theorem nth_add_of_end (hend : (nth text k).kind = .endOfFile) (n : Nat) :
    (nth text (k + n)).here.rest = [] ∧ (nth text (k + n)).reports = (nth text k).reports := by
  induction n with
  | zero =>
    have htoken := onToken_nth text k
    have hle := htoken.reaches.length_le
    rw [htoken.ends hend] at hle
    exact ⟨List.eq_nil_of_length_eq_zero (Nat.le_zero.1 hle), rfl⟩
  | succ n ih =>
    rw [← Nat.add_assoc, nth_succ, scan_of_rest_eq_nil ih.1]
    exact ih

theorem reports_nth_prefix (h : j ≤ k) : (nth text j).reports <+: (nth text k).reports := by
  induction k, h using Nat.le_induction with
  | base => exact List.prefix_rfl
  | succ k _ ih =>
    rw [nth_succ, scan, List.append_assoc]
    exact ih.trans (List.prefix_append ..)

/-- If nothing is wrong with the tokens up to the end of the text, nothing is with any. -/
theorem reports_nth_eq_nil (hend : (nth text k).kind = .endOfFile)
    (hreports : (nth text k).reports = []) (j : Nat) : (nth text j).reports = [] := by
  rcases Nat.le_total j k with hle | hle
  · exact List.prefix_nil.1 (hreports ▸ reports_nth_prefix hle)
  · obtain ⟨n, rfl⟩ := Nat.exists_eq_add_of_le hle
    rw [(nth_add_of_end hend n).2, hreports]

end Lexer

open Lexer

/-- The tokens of two texts are the same one by one, and nothing is wrong with any of them. -/
structure SameTokens (text text' : String) : Prop where
  token (k : Nat) : SameToken (nth text k) (nth text' k)
  reports (k : Nat) : (nth text k).reports = []
  reports' (k : Nat) : (nth text' k).reports = []

/-- It is enough to compare the tokens up to the end of both texts. -/
theorem SameTokens.of_end {text text' : String} {n : Nat}
    (htokens : ∀ k ≤ n, SameToken (nth text k) (nth text' k))
    (hend : (nth text n).kind = .endOfFile) (hreports : (nth text n).reports = [])
    (hreports' : (nth text' n).reports = []) : SameTokens text text' := by
  have hend' : (nth text' n).kind = .endOfFile := (htokens n (Nat.le_refl n)).kind ▸ hend
  refine ⟨fun k => ?_, reports_nth_eq_nil hend hreports, reports_nth_eq_nil hend' hreports'⟩
  rcases Nat.lt_or_ge n k with hlt | hle
  · obtain ⟨m, rfl⟩ := Nat.exists_eq_add_of_lt hlt
    rw [nth_succ, nth_succ, scan_of_rest_eq_nil (nth_add_of_end hend m).1,
      scan_of_rest_eq_nil (nth_add_of_end hend' m).1]
    exact ⟨rfl, rfl, rfl, by simp [Lexer.text, Cursor.textTo], rfl⟩
  · exact htokens k hle

theorem SameTokens.next {text text' : String} (same : SameTokens text text') (k : Nat) :
    SameToken (nth text k).scan (nth text' k).scan := by
  rw [← nth_succ, ← nth_succ]
  exact same.token (k + 1)

/-- Two texts with the same tokens. -/
structure Texts where
  left : String
  right : String
  same : SameTokens left right

/-- A token starts at `o` in the first text, and the same one at `o'` in the second. -/
def SamePlace (ts : Texts) (o o' : Nat) : Prop :=
  ∃ k, o = (nth ts.left k).start.offset ∧ o' = (nth ts.right k).start.offset

namespace SamePlace

variable {ts : Texts} {o o' u u' : Nat}

theorem le_iff (ho : SamePlace ts o o') (hu : SamePlace ts u u') : o ≤ u ↔ o' ≤ u' := by
  obtain ⟨j, rfl, rfl⟩ := ho
  obtain ⟨k, rfl, rfl⟩ := hu
  rw [start_le_iff, start_le_iff, (ts.same.token k).kind]

theorem eq_iff (ho : SamePlace ts o o') (hu : SamePlace ts u u') : o = u ↔ o' = u' := by
  rw [Nat.le_antisymm_iff, Nat.le_antisymm_iff, ho.le_iff hu, hu.le_iff ho]

end SamePlace

end LambdaLift
