import Lowering.Notation.Token
import Lowering.Proofs.QuotedTexts

namespace Lowering

namespace Position

/-- The place after some bytes of a file: one line more than there are line breaks, and one column
more than there are bytes after the last of them. -/
def after (file : Text) (bytes : List UInt8) : Position where
  file := file
  line := 1 + (bytes.count 0x0A : Nat)
  column := 1 + ((bytes.reverse.takeWhile (· ≠ 0x0A)).length : Nat)

theorem advance_after (file : Text) (bytes : List UInt8) (b : UInt8) :
    (after file bytes).advance b = after file (bytes ++ [b]) := by
  unfold advance after
  by_cases hb : b = 0x0A
  · simp [hb, List.count_append]
    omega
  · simp [hb, List.count_append]
    omega

theorem foldl_advance_after (file : Text) (bytes more : List UInt8) :
    more.foldl advance (after file bytes) = after file (bytes ++ more) := by
  induction more generalizing bytes with
  | nil => rw [List.append_nil]; rfl
  | cons b more ih =>
    rw [List.foldl_cons, advance_after, ih, List.append_assoc]
    rfl

end Position

namespace Token

variable {at_ start : Position} {bs rest seen : List UInt8}

/-- The end of a text, or a byte that ends an atom. -/
def Stops : List UInt8 → Prop
  | [] => True
  | b :: _ => endsAtom b = true

/-- A token with the bytes before it. -/
structure Lexeme where
  before : List UInt8
  kind : Kind

/-- A token with its place. -/
def Lexeme.token (file : Text) (t : Lexeme) : Token := ⟨Position.after file t.before, t.kind⟩

open Quoted (Enclosed)

/-- After some bytes the rest of a text has these tokens. Blanks, and comments up to the end of
their line, stand between tokens; an atom is as long as it can be, and a string ends at the first
quote that no backslash hides. -/
inductive Splits : List UInt8 → List UInt8 → List Lexeme → Prop where
  | nothing {before : List UInt8} : Splits before [] []
  | blank {before rest : List UInt8} {b : UInt8} {ts : List Lexeme} (isBlank : isBlank b = true)
      (more : Splits (before ++ [b]) rest ts) : Splits before (b :: rest) ts
  | comment {before text rest : List UInt8} {ts : List Lexeme} (line : ∀ b ∈ text, b ≠ 0x0A)
      (ends : ∀ b ∈ rest.head?, b = 0x0A) (more : Splits (before ++ 0x3B :: text) rest ts) :
      Splits before (0x3B :: (text ++ rest)) ts
  | opening {before rest : List UInt8} {ts : List Lexeme}
      (more : Splits (before ++ [0x28]) rest ts) :
      Splits before (0x28 :: rest) (⟨before, .opening⟩ :: ts)
  | closing {before rest : List UInt8} {ts : List Lexeme}
      (more : Splits (before ++ [0x29]) rest ts) :
      Splits before (0x29 :: rest) (⟨before, .closing⟩ :: ts)
  | atom {before bs rest : List UInt8} {ts : List Lexeme} (some : bs ≠ [])
      (plain : ∀ b ∈ bs, endsAtom b = false) (stops : Stops rest)
      (more : Splits (before ++ bs) rest ts) :
      Splits before (bs ++ rest) (⟨before, .atom ⟨bs⟩⟩ :: ts)
  | string {before body rest : List UInt8} {ts : List Lexeme} (isBody : Enclosed body)
      (more : Splits (before ++ 0x22 :: (body ++ [0x22])) rest ts) :
      Splits before (0x22 :: (body ++ 0x22 :: rest)) (⟨before, .string body⟩ :: ts)
  | unclosed {before text : List UInt8}
      (noEnd : ∀ body rest, Enclosed body → text ≠ body ++ 0x22 :: rest) :
      Splits before (0x22 :: text) [⟨before, .unclosed⟩]

theorem exists_run (p : UInt8 → Bool) (bs : List UInt8) : ∃ run rest, bs = run ++ rest ∧
    (∀ b ∈ run, p b = true) ∧ ∀ b ∈ rest.head?, p b = false := by
  induction bs with
  | nil => exact ⟨[], [], rfl, by simp, by simp⟩
  | cons b bs ih =>
    cases hb : p b with
    | true =>
      obtain ⟨run, rest, rfl, hrun, hrest⟩ := ih
      exact ⟨b :: run, rest, rfl, List.forall_mem_cons.mpr ⟨hb, hrun⟩, hrest⟩
    | false => exact ⟨[], b :: bs, rfl, by simp, by simpa using hb⟩

theorem exists_splits (before bs : List UInt8) : ∃ ts, Splits before bs ts := by
  match bs with
  | [] => exact ⟨[], .nothing⟩
  | b :: bs =>
    by_cases hopen : b = 0x28
    · subst hopen
      obtain ⟨ts, hts⟩ := exists_splits (before ++ [0x28]) bs
      exact ⟨_, .opening hts⟩
    by_cases hclose : b = 0x29
    · subst hclose
      obtain ⟨ts, hts⟩ := exists_splits (before ++ [0x29]) bs
      exact ⟨_, .closing hts⟩
    by_cases hquote : b = 0x22
    · subst hquote
      by_cases hend : ∃ body rest, Enclosed body ∧ bs = body ++ 0x22 :: rest
      · obtain ⟨body, rest, hbody, rfl⟩ := hend
        obtain ⟨ts, hts⟩ := exists_splits (before ++ 0x22 :: (body ++ [0x22])) rest
        exact ⟨_, .string hbody hts⟩
      · exact ⟨_, .unclosed fun body rest hbody heq => hend ⟨body, rest, hbody, heq⟩⟩
    by_cases hcomment : b = 0x3B
    · subst hcomment
      obtain ⟨line, rest, rfl, hline, hrest⟩ := exists_run (· ≠ 0x0A) bs
      obtain ⟨ts, hts⟩ := exists_splits (before ++ 0x3B :: line) rest
      exact ⟨ts, .comment (by simpa using hline) (by simpa using hrest) hts⟩
    by_cases hblank : isBlank b = true
    · obtain ⟨ts, hts⟩ := exists_splits (before ++ [b]) bs
      exact ⟨ts, .blank hblank hts⟩
    · have hplain : endsAtom b = false := by
        simp [endsAtom, hopen, hclose, hquote, hcomment, hblank]
      obtain ⟨run, rest, rfl, hrun, hrest⟩ := exists_run (fun b => !endsAtom b) bs
      obtain ⟨ts, hts⟩ := exists_splits (before ++ b :: run) rest
      have hstops : Stops rest := by
        cases rest with
        | nil => trivial
        | cons c rest =>
          have hc : endsAtom c = true := by simpa using hrest c rfl
          exact hc
      refine ⟨_, @Splits.atom before (b :: run) _ _ (by simp) ?_ hstops hts⟩
      simpa [hplain] using hrun
termination_by bs.length
decreasing_by all_goals simp_all <;> omega

theorem scanFrom_cons (mode : Mode) (at_ : Position) (b : UInt8) (bs : List UInt8) :
    scanFrom mode at_ (b :: bs) =
      (step at_ b mode).1 ++ scanFrom (step at_ b mode).2 (at_.advance b) bs := rfl

theorem scanFrom_comment (h : ∀ b ∈ bs, b ≠ 0x0A) (hs : ∀ b ∈ rest.head?, b = 0x0A)
    (at_ : Position) :
    scanFrom .comment at_ (bs ++ rest) = scanFrom .blank (bs.foldl Position.advance at_) rest := by
  induction bs generalizing at_ with
  | nil =>
    cases rest with
    | nil => rfl
    | cons b rest =>
      -- the line break is one more blank
      obtain rfl := hs b rfl
      rfl
  | cons b bs ih =>
    obtain ⟨hb, hbs⟩ := List.forall_mem_cons.mp h
    rw [List.cons_append, scanFrom_cons]
    simpa [step, hb] using ih hbs (at_.advance b)

theorem scanFrom_atom (h : ∀ b ∈ bs, endsAtom b = false) (hs : Stops rest) (start at_ : Position)
    (seen : List UInt8) : scanFrom (.atom start seen) at_ (bs ++ rest) =
      ⟨start, .atom ⟨seen.reverse ++ bs⟩⟩ ::
      scanFrom .blank (bs.foldl Position.advance at_) rest := by
  induction bs generalizing seen at_ with
  | nil =>
    cases rest with
    | nil => simp [scanFrom, finish]
    | cons b rest =>
      have hb : endsAtom b = true := hs
      -- the byte is taken as if the atom had not been there
      have hstep : step at_ b (.atom start seen) =
          (⟨start, .atom ⟨seen.reverse⟩⟩ :: (step at_ b .blank).1, (step at_ b .blank).2) := by
        simp [step, hb]
      rw [List.nil_append, scanFrom_cons, hstep, List.append_nil]
      rfl
  | cons b bs ih =>
    obtain ⟨hb, hbs⟩ := List.forall_mem_cons.mp h
    rw [List.cons_append, scanFrom_cons]
    simpa [step, hb] using ih hbs (at_.advance b) (b :: seen)

theorem scanFrom_blank_atom (hne : bs ≠ []) (h : ∀ b ∈ bs, endsAtom b = false) (hs : Stops rest)
    (at_ : Position) : scanFrom .blank at_ (bs ++ rest) =
      ⟨at_, .atom ⟨bs⟩⟩ :: scanFrom .blank (bs.foldl Position.advance at_) rest := by
  cases bs with
  | nil => exact absurd rfl hne
  | cons b bs =>
    obtain ⟨hb, hbs⟩ := List.forall_mem_cons.mp h
    have hstep : step at_ b .blank = ([], .atom at_ [b]) := by
      simp only [endsAtom, Bool.or_eq_false_iff, decide_eq_false_iff_not] at hb
      obtain ⟨⟨⟨⟨h1, h2⟩, h3⟩, h4⟩, h5⟩ := hb
      simp [step, enter, h1, h2, h3, h4, h5]
    rw [List.cons_append, scanFrom_cons, hstep]
    exact scanFrom_atom hbs hs at_ (at_.advance b) [b]

theorem scanFrom_string (h : Enclosed bs) (start at_ : Position) (seen rest : List UInt8) :
    scanFrom (.string start seen false) at_ (bs ++ 0x22 :: rest) =
      ⟨start, .string (seen.reverse ++ bs)⟩ ::
        scanFrom .blank ((bs ++ [0x22]).foldl Position.advance at_) rest := by
  induction h generalizing seen at_ with
  | nil =>
    rw [List.nil_append, scanFrom_cons]
    simp [step]
  | @byte b bs plain _ ih =>
    rw [List.cons_append, scanFrom_cons]
    simpa [step, plain.1, plain.2] using ih (at_.advance b) (b :: seen)
  | @escape b bs _ ih =>
    rw [List.cons_append, List.cons_append, scanFrom_cons, scanFrom_cons]
    simpa [step] using ih ((at_.advance 0x5C).advance b) (b :: 0x5C :: seen)

/-- A string without a closing quote goes on to the end. -/
theorem scanFrom_unclosed (bs : List UInt8)
    (h : ∀ body rest, Enclosed body → bs ≠ body ++ 0x22 :: rest)
    (start at_ : Position) (seen : List UInt8) :
    scanFrom (.string start seen false) at_ bs = [⟨start, .unclosed⟩] := by
  match bs with
  | [] => rfl
  | b :: bs =>
    have hb : b ≠ 0x22 := fun hb => h [] bs .nil (by simp [hb])
    by_cases hescape : b = 0x5C
    · subst hescape
      cases bs with
      | nil => rfl
      | cons c bs =>
        have ih := scanFrom_unclosed bs (fun body rest hbody heq =>
          h (0x5C :: c :: body) rest (.escape hbody) (by simp [heq])) start
          ((at_.advance 0x5C).advance c) (c :: 0x5C :: seen)
        rw [scanFrom_cons, scanFrom_cons]
        simpa [step] using ih
    · have ih := scanFrom_unclosed bs (fun body rest hbody heq =>
        h (b :: body) rest (.byte ⟨hb, hescape⟩ hbody) (by simp [heq])) start (at_.advance b)
        (b :: seen)
      rw [scanFrom_cons]
      simpa [step, hb, hescape] using ih

/-- The machine finds the tokens of a split at their places. -/
theorem scanFrom_splits (file : Text) (h : Splits before bs ts) :
    scanFrom .blank (.after file before) bs = ts.map (Lexeme.token file) := by
  induction h with
  | nothing => rfl
  | @blank before rest b ts isBlank more ih =>
    have hstep : step (.after file before) b .blank = ([], .blank) := by
      have hb : b = 0x20 ∨ b = 0x09 ∨ b = 0x0A ∨ b = 0x0D ∨ b = 0x2C := by
        simpa [Token.isBlank, or_assoc] using isBlank
      rcases hb with rfl | rfl | rfl | rfl | rfl <;> rfl
    rw [scanFrom_cons, hstep, Position.advance_after, ih]
    rfl
  | @comment before text rest ts line ends more ih =>
    rw [scanFrom_cons, Position.advance_after]
    change scanFrom .comment _ _ = _
    rw [scanFrom_comment line ends, Position.foldl_advance_after, List.append_assoc]
    exact ih
  | opening _ ih | closing _ ih =>
    rw [scanFrom_cons, Position.advance_after, List.map_cons, ← ih]
    rfl
  | @atom before bs rest ts some plain stops more ih =>
    rw [scanFrom_blank_atom some plain stops, Position.foldl_advance_after, ih]
    rfl
  | @string before body rest ts isBody more ih =>
    rw [scanFrom_cons, Position.advance_after]
    change scanFrom (.string _ [] false) _ _ = _
    rw [scanFrom_string isBody, Position.foldl_advance_after, List.append_assoc]
    exact congrArg _ ih
  | @unclosed before text noEnd =>
    rw [scanFrom_cons]
    exact scanFrom_unclosed text noEnd _ _ _

theorem scan_splits (file : Text) (h : Splits [] source.bytes ts) :
    scan file source = ts.map (Lexeme.token file) :=
  scanFrom_splits file h

/-- If it is an atom, then it is one that could stand alone. -/
def StandsAlone (t : Token) : Prop :=
  ∀ text, t.kind = .atom text → text.bytes ≠ [] ∧ ∀ b ∈ text.bytes, endsAtom b = false

theorem scan_standsAlone (file source : Text) : ∀ t ∈ scan file source, t.StandsAlone := by
  obtain ⟨ts, hts⟩ := exists_splits [] source.bytes
  rw [scan_splits file hts]
  refine List.forall_mem_map.mpr ?_
  generalize source.bytes = bs, ([] : List UInt8) = before at hts
  induction hts with
  | nothing => nofun
  | blank _ _ ih => exact ih
  | comment _ _ _ ih => exact ih
  | opening _ ih | closing _ ih | string _ _ ih => exact List.forall_mem_cons.mpr ⟨nofun, ih⟩
  | atom some plain _ _ ih =>
    refine List.forall_mem_cons.mpr ⟨fun text htext => ?_, ih⟩
    cases htext
    exact ⟨some, plain⟩
  | unclosed => exact List.forall_mem_singleton.mpr nofun

end Token

end Lowering
