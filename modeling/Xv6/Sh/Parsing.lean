/-
# Xv6.Sh.Parsing -- the parser accepts the command lines, and builds their commands

* A tree of spans denotes a command (`Denotes`); once its strings are terminated in memory, the
  command can be read there (`Denotes.terminated`): a string ends before a byte that is in no word, so
  the NULs overwrite none of them.
* What the parser returns is derived from the tokens it has read (`parses_sound`), by induction on the
  fuel; four calls at most stand between two tokens, so the fuel does not run out.
* Where a derivation can end, the parser does not panic (`Line.parses`), by induction on the derivation.
* `parsecmd_grammar` puts the two together.
-/
import Xv6.Sh.Reading

namespace Xv6.Sh
set_option autoImplicit false

open Lib List

variable {line : CString} {s : Nat} {tokens : List Token}

/-! ## Strings in memory -/

namespace Span

variable {span : Span} {w : Word}

/-- The text of the span in the line. -/
def text (line : CString) (span : Span) : Text := (line.bytes.drop span.q).take (span.eq - span.q)

theorem Marks.text (marks : span.Marks line w) : span.text line = w.text := by
  rw [Span.text, marks.eq, marks.stands.text, Nat.add_sub_cancel_left]
  exact take_left

theorem Marks.eq_le (marks : span.Marks line w) : span.eq ≤ line.es := by
  have length := congrArg length marks.stands.text
  have positive := length_pos_iff.mpr w.nonempty
  rw [length_drop, length_append, length_drop] at length
  have wide : (Token.word w).text.length = w.text.length := rfl
  have ended := marks.eq
  unfold CString.es
  omega

variable {i : Nat}

/-- A byte of the word, in the line. -/
theorem Marks.getElem? (marks : span.Marks line w) (inside : i < w.text.length) :
    line.bytes[span.q + i]? = w.text[i]? := by
  rw [← getElem?_drop, marks.stands.text]
  exact getElem?_append_left inside

theorem Marks.text_sub (marks : span.Marks line w) : 0 ∉ w.text := by
  intro zero
  refine line.terminated (mem_of_mem_drop (i := span.q) ?_)
  rw [marks.stands.text]
  exact mem_append_left _ zero

/-- No word ends inside another. -/
theorem Marks.ne_eq {other : Span} {v : Word} (marks : span.Marks line w)
    (marks' : other.Marks line v) (inside : i < w.text.length) : other.eq ≠ span.q + i := by
  intro same
  have byte := marks.getElem? inside
  rw [← same, getElem?_eq_getElem inside, ← head?_drop, marks'.eq] at byte
  have dark := marks'.stands.ends _ byte
  rw [w.plain _ (getElem_mem inside)] at dark
  simp at dark

end Span

theorem getElem?_foldl_set (ends : List Span) (mem : List Byte) (i : Nat) :
    (ends.foldl (fun mem span => mem.set span.eq 0) mem)[i]? =
      if i ∈ ends.map Span.eq ∧ i < mem.length then some 0 else mem[i]? := by
  induction ends generalizing mem with
  | nil => simp
  | cons span ends ih =>
    rw [foldl_cons, ih, length_set, getElem?_set]
    by_cases here : span.eq = i
    · by_cases inside : i < mem.length
      · simp [here, inside]
      · simp [here, inside]
    · simp [here, Ne.symm here]

variable {w : Word} {t : Token} {argc : Nat} {ret : Cmd Span}

/-- **Terminating words in place leaves every one of them its text.** -/
theorem cstring_terminated {ends : List Span} {span : Span}
    (words : ∀ other ∈ ends, ∃ v, other.Marks line v) (inside : span ∈ ends)
    (marks : span.Marks line w) :
    cstring (ends.foldl (fun mem span => mem.set span.eq 0) line.memory) span.q = w.text := by
  have bound := marks.eq_le
  have ended := marks.eq
  have length : line.memory.length = line.es + 1 := by simp [CString.memory, CString.es]
  have bytes : ∀ i < w.text.length,
      (ends.foldl (fun mem span => mem.set span.eq 0) line.memory)[span.q + i]? = w.text[i]? := by
    intro i within
    rw [getElem?_foldl_set, if_neg, CString.memory, getElem?_append_left, marks.getElem? within]
    · show _ < line.es
      omega
    · rintro ⟨clobbered, -⟩
      obtain ⟨other, member, same⟩ := mem_map.mp clobbered
      obtain ⟨v, marks'⟩ := words other member
      exact marks.ne_eq marks' within same
  have nul : (ends.foldl (fun mem span => mem.set span.eq 0) line.memory)[span.eq]? = some 0 := by
    rw [getElem?_foldl_set, if_pos ⟨mem_map.mpr ⟨span, inside, rfl⟩, by omega⟩]
  generalize ends.foldl (fun mem span => mem.set span.eq 0) line.memory = mem at bytes nul
  have split : mem.drop span.q = w.text ++ mem.drop span.eq := by
    apply ext_getElem?
    intro i
    rw [getElem?_drop]
    by_cases within : i < w.text.length
    · rw [bytes i within, getElem?_append_left within]
    · rw [getElem?_append_right (by omega), getElem?_drop]
      congr 1
      omega
  have stop : (mem.drop span.eq).takeWhile (· ≠ 0) = [] := by
    rw [← head?_drop] at nul
    obtain ⟨rest, behind⟩ := head?_eq_some_iff.mp nul
    rw [behind]
    simp
  have plain : ∀ c ∈ w.text, decide (c ≠ 0) = true := by
    intro c member
    have differ : c ≠ 0 := fun zero => marks.text_sub (zero ▸ member)
    simpa using differ
  rw [cstring, split, takeWhile_append_of_pos plain, stop, append_nil]

/-! ## Trees of spans -/

namespace Cmd

variable {σ τ : Type}

def map (f : σ → τ) : Cmd σ → Cmd τ
  | exec argv => exec (argv.map f)
  | redir cmd file mode fd => redir (cmd.map f) (f file) mode fd
  | pipe left right => pipe (left.map f) (right.map f)
  | list left right => list (left.map f) (right.map f)
  | back cmd => back (cmd.map f)

/-- The strings of a command, in the order of `nulterminate`. -/
def strings : Cmd σ → List σ
  | exec argv => argv
  | redir cmd file _ _ => cmd.strings ++ [file]
  | pipe left right => left.strings ++ right.strings
  | list left right => left.strings ++ right.strings
  | back cmd => cmd.strings

theorem map_congr {f g : σ → τ} {cmd : Cmd σ} (same : ∀ x ∈ cmd.strings, f x = g x) :
    cmd.map f = cmd.map g := by
  induction cmd with
  | exec argv => simpa [map, strings] using same
  | redir cmd file mode fd ih =>
    simp only [strings, mem_append, mem_singleton] at same
    rw [map, map, ih fun x member => same x (.inl member), same file (.inr rfl)]
  | pipe left right ihl ihr | list left right ihl ihr =>
    simp only [strings, mem_append] at same
    rw [map, map, ihl fun x member => same x (.inl member), ihr fun x member => same x (.inr member)]
  | back cmd ih => rw [map, map, ih same]

theorem map_addArg (f : σ → τ) (a : σ) (cmd : Cmd σ) :
    (cmd.addArg a).map f = (cmd.map f).addArg (f a) := by
  induction cmd with
  | exec argv => simp [addArg, map]
  | redir cmd file mode fd ih => simp [addArg, map, ih]
  | _ => rfl

theorem mem_strings_addArg {a x : σ} {cmd : Cmd σ} (member : x ∈ (cmd.addArg a).strings) :
    x = a ∨ x ∈ cmd.strings := by
  induction cmd with
  | exec argv => simpa [addArg, strings, or_comm] using member
  | redir cmd file mode fd ih =>
    simp only [addArg, strings, mem_append, mem_singleton] at member ⊢
    rcases member with member | same
    · exact (ih member).imp_right .inl
    · exact .inr (.inr same)
  | _ => exact .inr member

end Cmd

theorem nulterminate_eq (cmd : Cmd Span) (mem : List Byte) :
    nulterminate cmd mem = cmd.strings.foldl (fun mem span => mem.set span.eq 0) mem := by
  induction cmd generalizing mem with
  | exec argv => rfl
  | redir cmd file mode fd ih => simp [nulterminate, Cmd.strings, ih]
  | pipe left right ihl ihr | list left right ihl ihr =>
    simp [nulterminate, Cmd.strings, ihl, ihr]
  | back cmd ih => exact ih mem

/-- The tree is the command, with spans of the line for its strings. -/
structure Denotes (line : CString) (cmd : Cmd Span) (tree : Cmd Text) : Prop where
  shape : cmd.map (Span.text line) = tree
  words : ∀ span ∈ cmd.strings, ∃ w, span.Marks line w

namespace Denotes

variable {cmd cmd' : Cmd Span} {tree tree' : Cmd Text} {span : Span} {w : Word}

theorem exec_nil : Denotes line (.exec []) (.exec []) := ⟨rfl, by simp [Cmd.strings]⟩

theorem addArg (denotes : Denotes line cmd tree) (marks : span.Marks line w) :
    Denotes line (cmd.addArg span) (tree.addArg w.text) := by
  refine ⟨by rw [Cmd.map_addArg, denotes.shape, marks.text], fun other member => ?_⟩
  rcases Cmd.mem_strings_addArg member with rfl | old
  · exact ⟨w, marks⟩
  · exact denotes.words other old

theorem redir (denotes : Denotes line cmd tree) (marks : span.Marks line w) (d : Direction) :
    Denotes line (redircmd d.token.code cmd span) (Redir.apply tree ⟨d, w⟩) := by
  have words : ∀ other ∈ cmd.strings ++ [span], ∃ w, other.Marks line w := by
    intro other member
    rcases mem_append.mp member with old | new
    · exact denotes.words other old
    · rw [mem_singleton] at new
      exact ⟨w, new ▸ marks⟩
  cases d <;> exact ⟨by simp [redircmd, Direction.token, Token.code, Redir.apply, Cmd.map,
    denotes.shape, marks.text], words⟩

theorem back (denotes : Denotes line cmd tree) : Denotes line (.back cmd) (.back tree) :=
  ⟨congrArg Cmd.back denotes.shape, denotes.words⟩

theorem pipe (left : Denotes line cmd tree) (right : Denotes line cmd' tree') :
    Denotes line (.pipe cmd cmd') (.pipe tree tree') := by
  refine ⟨by rw [Cmd.map, left.shape, right.shape], fun span member => ?_⟩
  exact (mem_append.mp member).elim (left.words span) (right.words span)

theorem list (left : Denotes line cmd tree) (right : Denotes line cmd' tree') :
    Denotes line (.list cmd cmd') (.list tree tree') := by
  refine ⟨by rw [Cmd.map, left.shape, right.shape], fun span member => ?_⟩
  exact (mem_append.mp member).elim (left.words span) (right.words span)

/-- The command can be read in memory once the strings of the tree are terminated. -/
theorem terminated (denotes : Denotes line cmd tree) :
    cmd.map (fun span => cstring (nulterminate cmd line.memory) span.q) = tree := by
  rw [← denotes.shape]
  apply Cmd.map_congr
  intro span member
  obtain ⟨w, marks⟩ := denotes.words span member
  rw [nulterminate_eq, cstring_terminated denotes.words member marks, marks.text]

end Denotes

/-! ## What `peek` sees -/

theorem exists_of_peeks {toks : List Byte} (seen : peeks toks tokens = true) :
    ∃ t rest, tokens = t :: rest ∧ t.lead.any (· ∈ toks) = true := by
  cases tokens with
  | nil => simp [peeks] at seen
  | cons t rest => exact ⟨t, rest, rfl, by simpa [peeks] using seen⟩

theorem peeks_redir (seen : peeks [60, 62] tokens = true) :
    ∃ (d : Direction) (rest : List Token), tokens = d.token :: rest := by
  obtain ⟨t, rest, rfl, lead⟩ := exists_of_peeks seen
  cases t with
  | less => exact ⟨.input, rest, rfl⟩
  | greater => exact ⟨.output, rest, rfl⟩
  | append => exact ⟨.extend, rest, rfl⟩
  | _ => simp [Token.lead] at lead

/-- The symbols of `peek` that are tokens of their own. -/
theorem peeks_single {c : Byte} (symbol : t.lead = some c) (single : c ≠ 62)
    (seen : peeks [c] tokens = true) : ∃ rest, tokens = t :: rest := by
  obtain ⟨u, rest, rfl, lead⟩ := exists_of_peeks seen
  refine ⟨rest, ?_⟩
  cases t <;> cases u <;> simp_all [Token.lead] <;> subst symbol <;> simp_all

theorem Token.code_word (word : t.code = 97) : ∃ w, t = .word w := by
  cases t with
  | word w => exact ⟨w, rfl⟩
  | _ => simp [Token.code] at word

/-! ## What is returned is derived from what was read -/

/-- The call has read the tokens `taken`, and the tree is for `tree`. -/
def Took (line : CString) (tokens taken : List Token) (tree : Cmd Text) (cmd : Cmd Span) (s : Nat) :
    Prop :=
  ∃ rest, tokens = taken ++ rest ∧ Denotes line cmd tree ∧ Cursor line s rest

def Unfinished (reason : Stop) : Prop := reason = .unfinished

theorem panic_finished (text : String) : ¬ Unfinished (.panic text) := by simp [Unfinished]

theorem filename_sound (cursor : Cursor line s tokens) :
    Ensures Unfinished (filename line) s fun span s' =>
      ∃ w rest, tokens = .word w :: rest ∧ span.Marks line w ∧ Cursor line s' rest := by
  cases tokens with
  | nil =>
    refine (gettoken_none cursor).bind ?_
    rintro ⟨tok, span⟩ s' ⟨rfl, -⟩
    exact .stop (panic_finished _)
  | cons t tokens =>
    refine (gettoken_spec cursor).bind ?_
    rintro ⟨tok, span⟩ s' ⟨rfl, stands, ended, behind⟩
    by_cases word : t.code = 97
    · obtain ⟨w, rfl⟩ := Token.code_word word
      exact .pure ⟨w, tokens, rfl, ⟨stands, ended⟩, behind⟩
    · simp only [ne_eq, word, not_false_eq_true, if_true]
      exact .stop (panic_finished _)

variable {fuel : Nat} {cmd : Cmd Span}

theorem parseredirs_sound {tree : Cmd Text} (cursor : Cursor line s tokens)
    (denotes : Denotes line cmd tree) (enough : tokens.length < fuel) :
    Ensures Unfinished (parseredirs line fuel cmd) s fun cmd' s' =>
      ∃ rs : List Redir, Took line tokens (rs.flatMap Redir.toks) (rs.foldl Redir.apply tree) cmd' s' := by
  induction fuel generalizing s tokens cmd tree with
  | zero => exact absurd enough (Nat.not_lt_zero _)
  | succ fuel ih =>
    refine peek_bind cursor (by decide) fun s' cursor' => ?_
    by_cases more : peeks [60, 62] tokens = true
    · rw [if_pos more]
      obtain ⟨d, rest, rfl⟩ := peeks_redir more
      refine (gettoken_spec cursor').bind ?_
      rintro ⟨tok, span⟩ s'' ⟨rfl, -, -, behind⟩
      refine (filename_sound behind).bind ?_
      rintro file s''' ⟨w, rest, rfl, marks, last⟩
      refine (ih last (denotes.redir marks d) (by simp at enough; omega)).mono ?_
      rintro cmd' t ⟨rs, rest, rfl, denotes', cursor''⟩
      exact ⟨⟨d, w⟩ :: rs, rest, by simp [Redir.toks], denotes', cursor''⟩
    · rw [if_neg more]
      exact .pure ⟨[], tokens, rfl, denotes, cursor'⟩

/-- The command with the word and its redirections. -/
def Arg.apply (tree : Cmd Text) (a : Arg) : Cmd Text :=
  a.redirs.foldl Redir.apply (tree.addArg a.word.text)

theorem parseargs_sound {tree : Cmd Text} (cursor : Cursor line s tokens)
    (denotes : Denotes line ret tree) (enough : tokens.length < fuel) (few : argc < MAXARGS) :
    Ensures Unfinished (parseargs line fuel ret argc) s fun cmd s' =>
      ∃ as : List Arg, argc + as.length < MAXARGS ∧
        Took line tokens (as.flatMap Arg.toks) (as.foldl Arg.apply tree) cmd s' := by
  induction fuel generalizing s tokens ret tree argc with
  | zero => exact absurd enough (Nat.not_lt_zero _)
  | succ fuel ih =>
    refine peek_bind cursor (by decide) fun s' cursor' => ?_
    by_cases done : peeks [124, 41, 38, 59] tokens = true
    · rw [if_pos done]
      exact .pure ⟨[], few, tokens, rfl, denotes, cursor'⟩
    rw [if_neg done]
    cases tokens with
    | nil =>
      refine (gettoken_none cursor').bind ?_
      rintro ⟨tok, span⟩ s'' ⟨rfl, behind⟩
      exact .pure ⟨[], few, [], rfl, denotes, behind⟩
    | cons t tokens =>
      refine (gettoken_spec cursor').bind ?_
      rintro ⟨tok, span⟩ s'' ⟨rfl, stands, ended, behind⟩
      have some : t.code ≠ 0 := by cases t <;> simp [Token.code]
      simp only [some, if_false]
      by_cases word : t.code = 97
      · obtain ⟨w, rfl⟩ := Token.code_word word
        by_cases full : argc + 1 ≥ MAXARGS
        · rw [if_pos full]
          exact .stop (panic_finished _)
        rw [if_neg full]
        have marks : span.Marks line w := ⟨stands, ended⟩
        simp only [length_cons] at enough
        refine (parseredirs_sound behind (denotes.addArg marks) (by omega)).bind ?_
        rintro ret' s''' ⟨rs, rest, rfl, denotes', cursor''⟩
        rw [length_append] at enough
        refine (ih cursor'' denotes' (by omega) (by omega)).mono ?_
        rintro cmd t ⟨as, few', rest, rfl, denotes'', last⟩
        refine ⟨⟨w, rs⟩ :: as, by simp; omega, rest, by simp [Arg.toks], denotes'', last⟩
      · simp only [ne_eq, word, not_false_eq_true, if_true]
        exact .stop (panic_finished _)

theorem backcmds_sound {tree : Cmd Text} (cursor : Cursor line s tokens)
    (denotes : Denotes line cmd tree) (enough : tokens.length < fuel) :
    Ensures Unfinished (backcmds line fuel cmd) s fun cmd' s' =>
      ∃ n, Took line tokens (replicate n .amp) (Cmd.back^[n] tree) cmd' s' := by
  induction fuel generalizing s tokens cmd tree with
  | zero => exact absurd enough (Nat.not_lt_zero _)
  | succ fuel ih =>
    refine peek_bind cursor (by decide) fun s' cursor' => ?_
    by_cases more : peeks [38] tokens = true
    · obtain ⟨rest, rfl⟩ := peeks_single (t := .amp) rfl (by decide) more
      refine gettoken_bind cursor' fun _ s'' behind => ?_
      refine (ih behind denotes.back (by simp at enough; omega)).mono ?_
      rintro cmd' t ⟨n, rest, rfl, denotes', cursor''⟩
      exact ⟨n + 1, rest, rfl, denotes', cursor''⟩
    · rw [if_neg more]
      exact .pure ⟨0, tokens, rfl, denotes, cursor'⟩

theorem Redir.foldl_addArg (rs : List Redir) (tree : Cmd Text) (arg : Text) :
    (rs.foldl Redir.apply tree).addArg arg = rs.foldl Redir.apply (tree.addArg arg) := by
  induction rs generalizing tree with
  | nil => rfl
  | cons r rs ih =>
    rw [foldl_cons, foldl_cons, ih]
    congr 1
    obtain ⟨d, file⟩ := r
    cases d <;> rfl

/-- Words are added to the innermost node, so the redirections around it can come first. -/
theorem Arg.foldl_apply (as : List Arg) (rs : List Redir) (argv : List Text) :
    as.foldl Arg.apply (rs.foldl Redir.apply (.exec argv)) =
      (rs ++ as.flatMap Arg.redirs).foldl Redir.apply
        (.exec (argv ++ as.map fun a => a.word.text)) := by
  induction as generalizing rs argv with
  | nil => simp
  | cons a as ih =>
    rw [foldl_cons, Arg.apply, Redir.foldl_addArg, ← foldl_append]
    show as.foldl Arg.apply (foldl Redir.apply (.exec (argv ++ [a.word.text])) _) = _
    rw [ih]
    simp

/-- What the four calls return, with enough fuel for what is left of the line. -/
structure Sound (line : CString) (fuel : Nat) : Prop where
  parseline : ∀ s tokens, Cursor line s tokens → 4 * tokens.length + 4 ≤ fuel →
    Ensures Unfinished (Sh.parseline line fuel) s fun cmd s' =>
      ∃ l : Line, Took line tokens l.toks l.tree cmd s'
  parsepipe : ∀ s tokens, Cursor line s tokens → 4 * tokens.length + 3 ≤ fuel →
    Ensures Unfinished (Sh.parsepipe line fuel) s fun cmd s' =>
      ∃ p : Pipe, Took line tokens p.toks p.tree cmd s'
  parseexec : ∀ s tokens, Cursor line s tokens → 4 * tokens.length + 2 ≤ fuel →
    Ensures Unfinished (Sh.parseexec line fuel) s fun cmd s' =>
      ∃ e : Exec, Took line tokens e.toks e.tree cmd s'
  parseblock : ∀ s tokens, Cursor line s tokens → 4 * tokens.length + 1 ≤ fuel →
    Ensures Unfinished (Sh.parseblock line fuel) s fun cmd s' =>
      ∃ (l : Line) (rs : List Redir), Took line tokens (.open :: l.toks ++ .close :: rs.flatMap Redir.toks)
        (rs.foldl Redir.apply l.tree) cmd s'

section Step

variable {fuel : Nat}

section

variable (sound : Sound line fuel) (cursor : Cursor line s tokens)
include sound cursor

theorem parseline_sound (enough : 4 * tokens.length + 4 ≤ fuel + 1) :
    Ensures Unfinished (parseline line (fuel + 1)) s fun cmd s' =>
      ∃ l : Line, Took line tokens l.toks l.tree cmd s' := by
  refine (sound.parsepipe _ _ cursor (by omega)).bind ?_
  rintro cmd s₁ ⟨p, rest, rfl, denotes, cursor₁⟩
  rw [length_append] at enough
  refine (backcmds_sound cursor₁ denotes (by omega)).bind ?_
  rintro cmd' s₂ ⟨n, rest, rfl, denotes', cursor₂⟩
  refine peek_bind cursor₂ (by decide) fun s₃ cursor₃ => ?_
  by_cases more : peeks [59] rest = true
  · obtain ⟨rest, rfl⟩ := peeks_single (t := .semi) rfl (by decide) more
    refine gettoken_bind cursor₃ fun _ s₄ cursor₄ => ?_
    rw [length_append, length_cons] at enough
    refine (sound.parseline _ _ cursor₄ (by omega)).bind ?_
    rintro right s₅ ⟨l, rest, rfl, denotes'', cursor₅⟩
    exact .pure ⟨.seq p n l, rest, by simp [Line.toks], denotes'.list denotes'', cursor₅⟩
  · rw [if_neg more]
    exact .pure ⟨.one p n, rest, by simp [Line.toks], denotes', cursor₃⟩

theorem parsepipe_sound (enough : 4 * tokens.length + 3 ≤ fuel + 1) :
    Ensures Unfinished (parsepipe line (fuel + 1)) s fun cmd s' =>
      ∃ p : Pipe, Took line tokens p.toks p.tree cmd s' := by
  refine (sound.parseexec _ _ cursor (by omega)).bind ?_
  rintro cmd s₁ ⟨e, rest, rfl, denotes, cursor₁⟩
  rw [length_append] at enough
  refine peek_bind cursor₁ (by decide) fun s₂ cursor₂ => ?_
  by_cases more : peeks [124] rest = true
  · obtain ⟨rest, rfl⟩ := peeks_single (t := .bar) rfl (by decide) more
    refine gettoken_bind cursor₂ fun _ s₃ cursor₃ => ?_
    rw [length_cons] at enough
    refine (sound.parsepipe _ _ cursor₃ (by omega)).bind ?_
    rintro right s₄ ⟨p, rest, rfl, denotes', cursor₄⟩
    exact .pure ⟨.bar e p, rest, by simp [Pipe.toks], denotes.pipe denotes', cursor₄⟩
  · rw [if_neg more]
    exact .pure ⟨.one e, rest, rfl, denotes, cursor₂⟩

theorem parseblock_sound (enough : 4 * tokens.length + 1 ≤ fuel + 1) :
    Ensures Unfinished (parseblock line (fuel + 1)) s fun cmd s' =>
      ∃ (l : Line) (rs : List Redir), Took line tokens (.open :: l.toks ++ .close :: rs.flatMap Redir.toks)
        (rs.foldl Redir.apply l.tree) cmd s' := by
  refine peek_bind cursor (by decide) fun s₁ cursor₁ => ?_
  by_cases opened : peeks [40] tokens = true
  · obtain ⟨rest, rfl⟩ := peeks_single (t := .open) rfl (by decide) opened
    refine gettoken_bind cursor₁ fun _ s₂ cursor₂ => ?_
    rw [length_cons] at enough
    refine (sound.parseline _ _ cursor₂ (by omega)).bind ?_
    rintro cmd s₃ ⟨l, rest, rfl, denotes, cursor₃⟩
    rw [length_append] at enough
    refine peek_bind cursor₃ (by decide) fun s₄ cursor₄ => ?_
    by_cases closed : peeks [41] rest = true
    · obtain ⟨rest, rfl⟩ := peeks_single (t := .close) rfl (by decide) closed
      refine gettoken_bind cursor₄ fun _ s₅ cursor₅ => ?_
      rw [length_cons] at enough
      refine (parseredirs_sound cursor₅ denotes (by omega)).mono ?_
      rintro cmd' s₆ ⟨rs, rest, rfl, denotes', cursor₆⟩
      exact ⟨l, rs, rest, by simp, denotes', cursor₆⟩
    · rw [if_neg closed]
      exact .stop (panic_finished _)
  · rw [if_neg opened]
    exact .stop (panic_finished _)

theorem parseexec_sound (enough : 4 * tokens.length + 2 ≤ fuel + 1) :
    Ensures Unfinished (parseexec line (fuel + 1)) s fun cmd s' =>
      ∃ e : Exec, Took line tokens e.toks e.tree cmd s' := by
  refine peek_bind cursor (by decide) fun s₁ cursor₁ => ?_
  by_cases opened : peeks [40] tokens = true
  · rw [if_pos opened]
    refine (sound.parseblock _ _ cursor₁ (by omega)).mono ?_
    rintro cmd s₂ ⟨l, rs, took⟩
    exact ⟨.block l rs, took⟩
  · rw [if_neg opened]
    refine (parseredirs_sound cursor₁ .exec_nil (by omega)).bind ?_
    rintro ret s₂ ⟨rs, rest, rfl, denotes, cursor₂⟩
    rw [length_append] at enough
    refine (parseargs_sound cursor₂ denotes (by omega) (by decide)).mono ?_
    rintro cmd s₃ ⟨as, few, rest, rfl, denotes', cursor₃⟩
    rw [Arg.foldl_apply] at denotes'
    exact ⟨.simple rs as (by omega), rest, by simp [Exec.toks], denotes', cursor₃⟩

end

end Step

theorem parses_sound (line : CString) (fuel : Nat) : Sound line fuel := by
  induction fuel with
  | zero => constructor <;> intro s tokens cursor enough <;> omega
  | succ fuel ih =>
    exact ⟨fun _ _ => parseline_sound ih, fun _ _ => parsepipe_sound ih,
      fun _ _ => parseexec_sound ih, fun _ _ => parseblock_sound ih⟩

/-! ## Where a derivation can end, the parser does not panic -/

/-- Nothing may go wrong. -/
def Anything (_ : Stop) : Prop := True

theorem peeks_redir_none (none : NoRedir tokens) : peeks [60, 62] tokens = false := by
  cases tokens with
  | nil => rfl
  | cons t rest =>
    have other := none t rfl
    cases t with
    | less => exact absurd rfl (other .input)
    | greater => exact absurd rfl (other .output)
    | append => exact absurd rfl (other .extend)
    | _ => simp [peeks, Token.lead]

theorem peeks_follows {allowed : List Token} {toks : List Byte} (follows : Follows allowed tokens)
    (apart : ∀ t ∈ allowed, t.lead.any (· ∈ toks) = false) : peeks toks tokens = false := by
  cases tokens with
  | nil => rfl
  | cons t rest => simpa [peeks] using apart t (follows t rfl)

section Complete

variable {fuel : Nat} {rest : List Token}

theorem filename_parses (cursor : Cursor line s (.word w :: rest)) :
    Ensures Anything (filename line) s fun _ s' => Cursor line s' rest := by
  refine (gettoken_spec cursor).bind ?_
  rintro ⟨tok, span⟩ s' ⟨rfl, -, -, behind⟩
  exact .pure behind

theorem redirs_parse {rs : List Redir} (cursor : Cursor line s (rs.flatMap Redir.toks ++ rest))
    (none : NoRedir rest) (enough : (rs.flatMap Redir.toks ++ rest).length < fuel) :
    Ensures Anything (parseredirs line fuel cmd) s fun _ s' => Cursor line s' rest := by
  induction rs generalizing s fuel cmd with
  | nil =>
    obtain ⟨fuel, rfl⟩ := Nat.exists_eq_add_one.mpr (Nat.zero_lt_of_lt enough)
    refine peek_bind cursor (by decide) fun s₁ cursor₁ => ?_
    rw [flatMap_nil, nil_append, peeks_redir_none none]
    exact .pure cursor₁
  | cons r rs ih =>
    obtain ⟨fuel, rfl⟩ := Nat.exists_eq_add_one.mpr (Nat.zero_lt_of_lt enough)
    simp only [flatMap_cons, Redir.toks, cons_append, nil_append] at cursor enough
    refine peek_bind cursor (by decide) fun s₁ cursor₁ => ?_
    have more : peeks [60, 62] (r.direction.token :: .word r.file :: (rs.flatMap Redir.toks ++ rest)) =
        true := by cases r.direction <;> rfl
    rw [if_pos more]
    refine (gettoken_spec cursor₁).bind ?_
    rintro ⟨tok, span⟩ s₂ ⟨-, -, -, cursor₂⟩
    refine (filename_parses cursor₂).bind ?_
    intro file s₃ cursor₃
    exact ih cursor₃ (by simp at enough ⊢; omega)

theorem args_parse {as : List Arg} (cursor : Cursor line s (as.flatMap Arg.toks ++ rest))
    (follows : Follows execEnd rest) (few : argc + as.length < MAXARGS)
    (enough : (as.flatMap Arg.toks ++ rest).length < fuel) :
    Ensures Anything (parseargs line fuel ret argc) s fun _ s' => Cursor line s' rest := by
  induction as generalizing s fuel ret argc with
  | nil =>
    obtain ⟨fuel, rfl⟩ := Nat.exists_eq_add_one.mpr (Nat.zero_lt_of_lt enough)
    refine peek_bind cursor (by decide) fun s₁ cursor₁ => ?_
    rw [flatMap_nil, nil_append] at cursor₁ ⊢
    cases rest with
    | nil =>
      refine (gettoken_none cursor₁).bind ?_
      rintro ⟨tok, span⟩ s₂ ⟨rfl, cursor₂⟩
      exact .pure cursor₂
    | cons t rest =>
      have stops : peeks [124, 41, 38, 59] (t :: rest) = true := by
        have inside := follows t rfl
        simp only [execEnd, mem_cons, not_mem_nil, or_false] at inside
        rcases inside with rfl | rfl | rfl | rfl <;> rfl
      rw [if_pos stops]
      exact .pure cursor₁
  | cons a as ih =>
    obtain ⟨fuel, rfl⟩ := Nat.exists_eq_add_one.mpr (Nat.zero_lt_of_lt enough)
    simp only [flatMap_cons, Arg.toks, cons_append, append_assoc] at cursor enough
    refine peek_bind cursor (by decide) fun s₁ cursor₁ => ?_
    refine (gettoken_spec cursor₁).bind ?_
    rintro ⟨tok, span⟩ s₂ ⟨rfl, -, -, cursor₂⟩
    simp only [length_cons, length_append] at few enough
    have room : ¬ argc + 1 ≥ MAXARGS := by omega
    show Ensures Anything (if argc + 1 ≥ MAXARGS then _ else _) s₂ _
    rw [if_neg room]
    refine (redirs_parse cursor₂ (noRedir_args as follows.noRedir) ?_).bind ?_
    · simp only [length_append]
      omega
    intro ret' s₃ cursor₃
    exact ih cursor₃ (by omega) (by rw [length_append]; omega)

theorem amps_parse {n : Nat} (cursor : Cursor line s (replicate n .amp ++ rest))
    (follows : Follows [.close, .semi] rest)
    (enough : (replicate n Token.amp ++ rest).length < fuel) :
    Ensures Anything (backcmds line fuel cmd) s fun _ s' => Cursor line s' rest := by
  induction n generalizing s fuel cmd with
  | zero =>
    obtain ⟨fuel, rfl⟩ := Nat.exists_eq_add_one.mpr (Nat.zero_lt_of_lt enough)
    refine peek_bind cursor (by decide) fun s₁ cursor₁ => ?_
    rw [replicate_zero, nil_append, peeks_follows follows (by decide)]
    exact .pure cursor₁
  | succ n ih =>
    obtain ⟨fuel, rfl⟩ := Nat.exists_eq_add_one.mpr (Nat.zero_lt_of_lt enough)
    refine peek_bind cursor (by decide) fun s₁ cursor₁ => ?_
    refine gettoken_bind cursor₁ fun _ s₂ cursor₂ => ?_
    exact ih cursor₂ (by simp at enough ⊢; omega)

end Complete

mutual

theorem Line.parses : ∀ (l : Line) {s fuel : Nat} {rest : List Token},
    Cursor line s (l.toks ++ rest) → Follows lineEnd rest → 4 * (l.toks ++ rest).length + 4 ≤ fuel →
    Ensures Anything (parseline line fuel) s fun _ s' => Cursor line s' rest
  | .one p n, s, fuel + 1, rest, cursor, follows, enough => by
    simp only [Line.toks, append_assoc] at cursor enough
    have stops := follows.semi_or_close
    refine (Pipe.parses p cursor (stops.amps n) (by omega)).bind ?_
    intro cmd s₁ cursor₁
    rw [length_append] at enough
    refine (amps_parse cursor₁ stops (by omega)).bind ?_
    intro cmd' s₂ cursor₂
    refine peek_bind cursor₂ (by decide) fun s₃ cursor₃ => ?_
    rw [peeks_follows follows (by decide)]
    exact .pure cursor₃
  | .seq p n l, s, fuel + 1, rest, cursor, follows, enough => by
    simp only [Line.toks, append_assoc, cons_append] at cursor enough
    have stops : Follows [.close, .semi] (.semi :: (l.toks ++ rest)) := .cons (by simp)
    refine (Pipe.parses p cursor (stops.amps n) (by omega)).bind ?_
    intro cmd s₁ cursor₁
    rw [length_append] at enough
    refine (amps_parse cursor₁ stops (by omega)).bind ?_
    intro cmd' s₂ cursor₂
    refine peek_bind cursor₂ (by decide) fun s₃ cursor₃ => ?_
    refine gettoken_bind cursor₃ fun _ s₄ cursor₄ => ?_
    rw [length_append, length_cons] at enough
    refine (Line.parses l cursor₄ follows (by omega)).bind ?_
    intro right s₅ cursor₅
    exact .pure cursor₅

theorem Pipe.parses : ∀ (p : Pipe) {s fuel : Nat} {rest : List Token},
    Cursor line s (p.toks ++ rest) → Follows pipeEnd rest → 4 * (p.toks ++ rest).length + 3 ≤ fuel →
    Ensures Anything (parsepipe line fuel) s fun _ s' => Cursor line s' rest
  | .one e, s, fuel + 1, rest, cursor, follows, enough => by
    simp only [Pipe.toks] at cursor enough
    refine (Exec.parses e cursor (follows.mono (by simp [pipeEnd, execEnd])) (by omega)).bind ?_
    intro cmd s₁ cursor₁
    refine peek_bind cursor₁ (by decide) fun s₂ cursor₂ => ?_
    rw [peeks_follows follows (by decide)]
    exact .pure cursor₂
  | .bar e p, s, fuel + 1, rest, cursor, follows, enough => by
    simp only [Pipe.toks, append_assoc, cons_append] at cursor enough
    refine (Exec.parses e cursor (.cons (by simp [execEnd])) (by omega)).bind ?_
    intro cmd s₁ cursor₁
    refine peek_bind cursor₁ (by decide) fun s₂ cursor₂ => ?_
    refine gettoken_bind cursor₂ fun _ s₃ cursor₃ => ?_
    rw [length_append, length_cons] at enough
    refine (Pipe.parses p cursor₃ follows (by omega)).bind ?_
    intro right s₄ cursor₄
    exact .pure cursor₄

theorem Exec.parses : ∀ (e : Exec) {s fuel : Nat} {rest : List Token},
    Cursor line s (e.toks ++ rest) → Follows execEnd rest → 4 * (e.toks ++ rest).length + 2 ≤ fuel →
    Ensures Anything (parseexec line fuel) s fun _ s' => Cursor line s' rest
  | .block l rs, s, fuel + 2, rest, cursor, follows, enough => by
    simp only [Exec.toks, append_assoc, cons_append] at cursor enough
    refine peek_bind cursor (by decide) fun s₁ cursor₁ => ?_
    -- the parenthesis is looked for again by `parseblock`
    show Ensures Anything (parseblock line (fuel + 1)) s₁ _
    refine peek_bind cursor₁ (by decide) fun s₂ cursor₂ => ?_
    refine gettoken_bind cursor₂ fun _ s₃ cursor₃ => ?_
    rw [length_cons] at enough
    refine (Line.parses l cursor₃ (.cons (by simp [lineEnd])) (by omega)).bind ?_
    intro cmd s₄ cursor₄
    refine peek_bind cursor₄ (by decide) fun s₅ cursor₅ => ?_
    refine gettoken_bind cursor₅ fun _ s₆ cursor₆ => ?_
    rw [length_append, length_cons] at enough
    exact redirs_parse cursor₆ follows.noRedir (by omega)
  | .simple rs as few, s, fuel + 1, rest, cursor, follows, enough => by
    simp only [Exec.toks] at cursor enough
    refine peek_bind cursor (by decide) fun s₁ cursor₁ => ?_
    by_cases opened : peeks [40] (rs.flatMap Redir.toks ++ as.flatMap Arg.toks ++ rest) = true
    · obtain ⟨behind, same⟩ := peeks_single (t := .open) rfl (by decide) opened
      exact (simple_ne_open rs as follows same).elim
    · rw [if_neg opened]
      rw [append_assoc] at cursor₁ enough
      refine (redirs_parse cursor₁ (noRedir_args as follows.noRedir) (by omega)).bind ?_
      intro ret s₂ cursor₂
      rw [length_append] at enough
      exact args_parse cursor₂ follows (by omega) (by omega)

end

/-! ## The whole line -/

theorem Spells.length_le {bytes : List Byte} (spelled : Spells bytes tokens) :
    tokens.length ≤ bytes.length := by
  induction spelled with
  | done => simp
  | blank white more ih => simp; omega
  | @token t rest tokens ends more ih =>
    obtain ⟨c, others, text, -⟩ := t.exists_cons
    rw [text]
    simp
    omega

theorem Cursor.start (spelled : Spells line.bytes tokens) : Cursor line 0 tokens :=
  ⟨Nat.zero_le _, spelled⟩

/-- A call that returns has read the whole line. -/
theorem parsewhole_sound (spelled : Spells line.bytes tokens)
    (enough : 4 * tokens.length + 4 ≤ fuel) :
    Ensures Unfinished (parsewhole line fuel) 0 fun cmd _ =>
      ∃ l : Line, tokens = l.toks ∧ Denotes line cmd l.tree := by
  refine ((parses_sound line fuel).parseline 0 tokens (.start spelled) enough).bind ?_
  rintro cmd s₁ ⟨l, rest, rfl, denotes, cursor₁⟩
  refine (peek_spec (by decide) cursor₁).bind ?_
  rintro seen s₂ ⟨cursor₂, -⟩
  refine .getBind ?_
  by_cases ended : s₂ = line.es
  · rw [if_neg (by simpa using ended)]
    have none := cursor₂.spells
    rw [ended, CString.drop_es] at none
    cases none.unique .done
    exact .pure ⟨l, by simp, denotes⟩
  · rw [if_pos ended]
    exact .stop (by simp [Unfinished])

/-- A line that is derived is not refused. -/
theorem parsewhole_parses {l : Line} (spelled : Spells line.bytes l.toks)
    (enough : 4 * l.toks.length + 4 ≤ fuel) :
    Ensures Anything (parsewhole line fuel) 0 fun _ _ => True := by
  have cursor : Cursor line 0 (l.toks ++ []) := by
    rw [append_nil]
    exact .start spelled
  refine (Line.parses l cursor (by simp [Follows]) (by simpa using enough)).bind ?_
  intro cmd s₁ cursor₁
  refine (peek_none cursor₁).bind ?_
  rintro seen s₂ rfl
  refine .getBind ?_
  rw [if_neg (by simp)]
  exact .pure trivial

theorem parsecmd_error {reason : Stop} :
    parsecmd line fuel = .error reason ↔ parsewhole line fuel 0 = .error reason := by
  rw [parsecmd]
  cases parsewhole line fuel 0 <;> simp

theorem parsecmd_ok {mem : List Byte} (parsed : parsecmd line fuel = .ok (cmd, mem)) :
    (∃ s, parsewhole line fuel 0 = .ok (cmd, s)) ∧ mem = nulterminate cmd line.memory := by
  rw [parsecmd] at parsed
  cases whole : parsewhole line fuel 0 with
  | error reason =>
    rw [whole] at parsed
    simp at parsed
  | ok result =>
    rw [whole] at parsed
    cases parsed
    exact ⟨⟨result.2, rfl⟩, rfl⟩

/-- **The parser of the shell.** With fuel for four calls a byte, `parsecmd` ends in an answer of the
program. It returns a tree for the lines of the grammar and for no others. Such a line has one
derivation; the strings of the tree, read in memory once they are terminated, make it the command of
that derivation; and each of them is the text of the word that stands where the string starts. -/
theorem parsecmd_grammar (line : CString) (fuel : Nat) (enough : 4 * line.es + 4 ≤ fuel) :
    parsecmd line fuel ≠ .error .unfinished ∧
    ((∃ cmd mem, parsecmd line fuel = .ok (cmd, mem)) ↔ ∃ l : Line, Spells line.bytes l.toks) ∧
    (∀ l l' : Line, Spells line.bytes l.toks → Spells line.bytes l'.toks → l = l') ∧
    ∀ cmd mem, parsecmd line fuel = .ok (cmd, mem) →
      (∀ l : Line, Spells line.bytes l.toks → cmd.map (fun span => cstring mem span.q) = l.tree) ∧
      ∀ span ∈ cmd.strings, ∃ w : Word, (Token.word w).At line span.q ∧
        cstring mem span.q = w.text := by
  obtain ⟨tokens, spelled⟩ := Spells.exists line.bytes
  have short : tokens.length ≤ line.es := spelled.length_le
  have sound := parsewhole_sound spelled (show 4 * tokens.length + 4 ≤ fuel by omega)
  refine ⟨?_, ⟨?_, ?_⟩, ?_, ?_⟩
  · rw [ne_eq, parsecmd_error]
    exact sound.failed rfl
  · rintro ⟨cmd, mem, parsed⟩
    obtain ⟨⟨s, whole⟩, -⟩ := parsecmd_ok parsed
    obtain ⟨l, same, -⟩ := sound.returned whole
    exact ⟨l, same ▸ spelled⟩
  · rintro ⟨l, derived⟩
    have fits : 4 * l.toks.length + 4 ≤ fuel := by
      rw [← spelled.unique derived]
      omega
    cases result : parsecmd line fuel with
    | ok parsed => exact ⟨parsed.1, parsed.2, rfl⟩
    | error reason =>
      exact ((parsewhole_parses derived fits).failed trivial (parsecmd_error.mp result)).elim
  · intro l l' derived derived'
    exact Line.unique (derived.unique derived')
  · intro cmd mem parsed
    obtain ⟨⟨s, whole⟩, rfl⟩ := parsecmd_ok parsed
    obtain ⟨l, same, denotes⟩ := sound.returned whole
    constructor
    · intro l' derived
      rw [denotes.terminated, Line.unique (same.symm.trans (spelled.unique derived))]
    · intro span member
      obtain ⟨w, marks⟩ := denotes.words span member
      refine ⟨w, marks.stands, ?_⟩
      rw [nulterminate_eq, cstring_terminated denotes.words member marks]

/-- `a<b|(c>>d&);` -/
def sampleLine : CString :=
  ⟨[97, 60, 98, 124, 40, 99, 32, 62, 62, 100, 38, 41, 59], by decide⟩

theorem parsecmd_grammar_sample :
    (parsecmd sampleLine 56).toOption.map (fun parsed => parsed.1.map fun span => cstring parsed.2 span.q) =
      some (.list
        (.pipe (.redir (.exec [[97]]) [98] O_RDONLY 0)
          (.back (.redir (.exec [[99]]) [100] (O_WRONLY ||| O_CREATE) 1)))
        (.exec [])) ∧
    ∃ l : Line, Spells sampleLine.bytes l.toks := by
  refine ⟨by decide +kernel, ?_⟩
  have accepted : (parsecmd sampleLine 56).isOk = true := by decide +kernel
  cases ran : parsecmd sampleLine 56 with
  | error reason =>
    rw [ran] at accepted
    simp [Except.isOk, Except.toBool] at accepted
  | ok parsed =>
    exact (parsecmd_grammar sampleLine 56 (by decide)).2.1.mp ⟨parsed.1, parsed.2, ran⟩

end Xv6.Sh
