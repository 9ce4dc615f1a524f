/-
# Xv6.Sh.Grammar -- the command lines of the shell

* `Spells bytes tokens`: the bytes are the tokens, with whitespace between them. A token does not
  end where the next byte would still belong to it.
* `Line`, `Pipe`, `Exec`: the derivations of

      line ::= pipe '&'* [';' line]
      pipe ::= exec ['|' pipe]
      exec ::= '(' line ')' redir* | redir* (word redir*)*      with fewer than MAXARGS words
      redir ::= ('<' | '>' | '>>') word

  A derivation has the tokens it derives (`toks`) and the command it stands for (`tree`).
* Bytes are spelled by one list of tokens (`Spells.exists`, `Spells.unique`), and tokens are derived in
  one way (`Line.unique`): what may follow a part of a line is never what it may go on with.
-/
import Mathlib.Data.List.TakeWhile
import Xv6.Sh.Parser

namespace Xv6.Sh
set_option autoImplicit false

open List

/-! ## Tokens -/

@[ext]
structure Word where
  text : List Byte
  nonempty : text ≠ []
  plain : ∀ c ∈ text, wordByte c = true
  deriving DecidableEq

inductive Token where
  | bar
  | open
  | close
  | semi
  | amp
  | less
  | greater
  | append
  | word (w : Word)
  deriving DecidableEq

namespace Token

def text : Token → List Byte
  | bar => [124]
  | .open => [40]
  | close => [41]
  | semi => [59]
  | amp => [38]
  | less => [60]
  | greater => [62]
  | append => [62, 62]
  | word w => w.text

/-- The token ends before `rest`. -/
def Ends : Token → List Byte → Prop
  | greater, rest => rest.head? ≠ some 62
  | word _, rest => ∀ c ∈ rest.head?, wordByte c = false
  | _, _ => True

end Token

inductive Spells : List Byte → List Token → Prop
  | done : Spells [] []
  | blank {c : Byte} {bytes : List Byte} {tokens : List Token} (white : c ∈ whitespace)
      (more : Spells bytes tokens) : Spells (c :: bytes) tokens
  | token {t : Token} {rest : List Byte} {tokens : List Token} (ends : t.Ends rest)
      (more : Spells rest tokens) : Spells (t.text ++ rest) (t :: tokens)

/-! ## Derivations -/

inductive Direction where
  | input
  | output
  | extend
  deriving DecidableEq, Repr

structure Redir where
  direction : Direction
  file : Word
  deriving DecidableEq

/-- A word and the redirections behind it. -/
structure Arg where
  word : Word
  redirs : List Redir
  deriving DecidableEq

mutual

inductive Line where
  | one (pipe : Pipe) (amps : Nat)
  | seq (pipe : Pipe) (amps : Nat) (rest : Line)

inductive Pipe where
  | one (exec : Exec)
  | bar (exec : Exec) (rest : Pipe)

inductive Exec where
  | block (line : Line) (redirs : List Redir)
  | simple (redirs : List Redir) (args : List Arg) (few : args.length < MAXARGS)

end

def Direction.token : Direction → Token
  | input => .less
  | output => .greater
  | extend => .append

def Redir.toks (r : Redir) : List Token := [r.direction.token, .word r.file]

def Arg.toks (a : Arg) : List Token := .word a.word :: a.redirs.flatMap Redir.toks

mutual

def Line.toks : Line → List Token
  | .one pipe amps => pipe.toks ++ replicate amps .amp
  | .seq pipe amps rest => pipe.toks ++ replicate amps .amp ++ .semi :: rest.toks

def Pipe.toks : Pipe → List Token
  | .one exec => exec.toks
  | .bar exec rest => exec.toks ++ .bar :: rest.toks

def Exec.toks : Exec → List Token
  | .block line redirs => .open :: line.toks ++ .close :: redirs.flatMap Redir.toks
  | .simple redirs args _ => redirs.flatMap Redir.toks ++ args.flatMap Arg.toks

end

/-! ## Commands -/

abbrev Text := List Byte

def Redir.apply (cmd : Cmd Text) (r : Redir) : Cmd Text :=
  match r.direction with
  | .input => .redir cmd r.file.text O_RDONLY 0
  | .output => .redir cmd r.file.text (O_WRONLY ||| O_CREATE) 1
  | .extend => .redir cmd r.file.text (O_WRONLY ||| O_CREATE) 1

mutual

def Line.tree : Line → Cmd Text
  | .one pipe amps => Cmd.back^[amps] pipe.tree
  | .seq pipe amps rest => .list (Cmd.back^[amps] pipe.tree) rest.tree

def Pipe.tree : Pipe → Cmd Text
  | .one exec => exec.tree
  | .bar exec rest => .pipe exec.tree rest.tree

def Exec.tree : Exec → Cmd Text
  | .block line redirs => redirs.foldl Redir.apply line.tree
  | .simple redirs args _ =>
    (redirs ++ args.flatMap Arg.redirs).foldl Redir.apply (.exec (args.map fun a => a.word.text))

end

/-! ## One list of tokens -/

variable {c : Byte} {t : Token} {rest r r' : List Token}

theorem wordByte_iff : wordByte c = true ↔ c ∉ whitespace ∧ c ∉ symbols := by
  simp [wordByte]

theorem Word.exists_cons (w : Word) : ∃ c rest, w.text = c :: rest ∧ wordByte c = true := by
  obtain ⟨c, rest, text⟩ := exists_cons_of_ne_nil w.nonempty
  exact ⟨c, rest, text, w.plain c (by simp [text])⟩

/-- A token starts with a byte that is not white. -/
theorem Token.exists_cons (t : Token) : ∃ c rest, t.text = c :: rest ∧ c ∉ whitespace := by
  cases t with
  | word w =>
    obtain ⟨c, rest, text, plain⟩ := w.exists_cons
    exact ⟨c, rest, text, (wordByte_iff.mp plain).1⟩
  | _ => exact ⟨_, _, rfl, by decide⟩

theorem symbols_plain (sym : c ∈ symbols) : wordByte c = false := by
  simp [wordByte, sym]

/-- The word at the start of `bytes`. -/
theorem Word.exists_start (bytes : List Byte) (plain : wordByte c = true) :
    ∃ (w : Word) (rest : List Byte), c :: bytes = w.text ++ rest ∧ (Token.word w).Ends rest := by
  refine ⟨⟨(c :: bytes).takeWhile wordByte, ?_, ?_⟩, (c :: bytes).dropWhile wordByte, ?_, ?_⟩
  · simp [plain]
  · exact fun b inside => mem_takeWhile_imp inside
  · exact (takeWhile_append_dropWhile).symm
  · intro b first
    have stopped := head?_dropWhile_not wordByte (c :: bytes)
    rw [first] at stopped
    simpa using stopped

theorem Spells.cons {bytes rest : List Byte} {tokens : List Token}
    (text : c :: bytes = t.text ++ rest) (ends : t.Ends rest) (more : Spells rest tokens) :
    Spells (c :: bytes) (t :: tokens) := by
  rw [text]
  exact .token ends more

/-- The token at the start of bytes that do not start with whitespace. -/
theorem Token.exists_start (bytes : List Byte) (dark : c ∉ whitespace) :
    ∃ (t : Token) (rest : List Byte), c :: bytes = t.text ++ rest ∧ t.Ends rest := by
  by_cases sym : c ∈ symbols
  · simp only [symbols, mem_cons, not_mem_nil, or_false] at sym
    rcases sym with rfl | rfl | rfl | rfl | rfl | rfl | rfl
    · exact ⟨.less, bytes, rfl, trivial⟩
    · exact ⟨.bar, bytes, rfl, trivial⟩
    · by_cases twice : bytes.head? = some 62
      · obtain ⟨rest, rfl⟩ := head?_eq_some_iff.mp twice
        exact ⟨.append, rest, rfl, trivial⟩
      · exact ⟨.greater, bytes, rfl, twice⟩
    · exact ⟨.amp, bytes, rfl, trivial⟩
    · exact ⟨.semi, bytes, rfl, trivial⟩
    · exact ⟨.open, bytes, rfl, trivial⟩
    · exact ⟨.close, bytes, rfl, trivial⟩
  · obtain ⟨w, rest, text, ends⟩ := Word.exists_start bytes (wordByte_iff.mpr ⟨dark, sym⟩)
    exact ⟨.word w, rest, text, ends⟩

theorem Spells.exists (bytes : List Byte) : ∃ tokens, Spells bytes tokens := by
  induction h : bytes.length using Nat.strong_induction_on generalizing bytes with
  | _ n ih =>
    subst h
    cases bytes with
    | nil => exact ⟨[], .done⟩
    | cons c bytes =>
      by_cases white : c ∈ whitespace
      · obtain ⟨tokens, more⟩ := ih bytes.length (by simp) bytes rfl
        exact ⟨tokens, .blank white more⟩
      · obtain ⟨t, rest, text, ends⟩ := Token.exists_start bytes white
        obtain ⟨a, as, starts, -⟩ := t.exists_cons
        have shorter : rest.length < (c :: bytes).length := by
          rw [text, starts]
          simp
        obtain ⟨tokens, more⟩ := ih rest.length shorter rest rfl
        exact ⟨t :: tokens, .cons text ends more⟩

/-- A word is all the word bytes at the start of what it starts. -/
theorem Word.text_eq {w : Word} {rest : List Byte} (ends : (Token.word w).Ends rest) :
    (w.text ++ rest).takeWhile wordByte = w.text := by
  have stop : rest.takeWhile wordByte = [] := by
    cases rest with
    | nil => rfl
    | cons c rest => simp [ends c rfl]
  rw [takeWhile_append_of_pos w.plain, stop, append_nil]

/-- No word starts where a symbol does. -/
theorem Word.ne_symbol {w : Word} {rest bytes : List Byte} (sym : c ∈ symbols) :
    w.text ++ rest ≠ c :: bytes := by
  obtain ⟨a, as, text, plain⟩ := w.exists_cons
  intro same
  rw [text, cons_append, cons.injEq] at same
  rw [same.1, symbols_plain sym] at plain
  simp at plain

theorem Token.start_unique {u : Token} {rest rest' : List Byte} (ends : t.Ends rest)
    (ends' : u.Ends rest') (same : t.text ++ rest = u.text ++ rest') : t = u ∧ rest = rest' := by
  cases t with
  | word w =>
    cases u with
    | word v =>
      have bytes : w.text ++ rest = v.text ++ rest' := same
      have texts : w.text = v.text := by
        rw [← Word.text_eq ends, bytes, Word.text_eq ends']
      rw [texts] at bytes
      exact ⟨congrArg _ (Word.ext texts), append_cancel_left bytes⟩
    | _ => exact absurd same (Word.ne_symbol (by decide))
  | _ =>
    cases u with
    | word v => exact absurd same.symm (Word.ne_symbol (by decide))
    | _ =>
      simp only [Token.text, Token.Ends, cons_append, nil_append] at same ends ends'
      first
        | cases same; simp at *
        | simp_all

theorem Spells.unique {bytes : List Byte} {tokens tokens' : List Token} (spelled : Spells bytes tokens)
    (spelled' : Spells bytes tokens') : tokens = tokens' := by
  induction spelled generalizing tokens' with
  | done =>
    generalize empty : ([] : List Byte) = bytes at spelled'
    cases spelled' with
    | done => rfl
    | blank => simp at empty
    | @token t =>
      obtain ⟨c, rest, text, -⟩ := t.exists_cons
      simp [text] at empty
  | @blank c bytes tokens white more ih =>
    generalize whole : c :: bytes = all at spelled'
    cases spelled' with
    | done => simp at whole
    | blank _ more' =>
      cases whole
      exact ih more'
    | @token t =>
      obtain ⟨a, rest, text, dark⟩ := t.exists_cons
      rw [text, cons_append, cons.injEq] at whole
      rw [whole.1] at white
      exact absurd white dark
  | @token t rest tokens ends more ih =>
    generalize whole : t.text ++ rest = all at spelled'
    cases spelled' with
    | done =>
      obtain ⟨a, rest, text, -⟩ := t.exists_cons
      simp [text] at whole
    | blank white =>
      obtain ⟨a, rest, text, dark⟩ := t.exists_cons
      rw [text, cons_append, cons.injEq] at whole
      rw [whole.1] at dark
      exact absurd white dark
    | token ends' more' =>
      obtain ⟨rfl, rfl⟩ := Token.start_unique ends ends' whole
      rw [ih more']

/-! ## One derivation -/

/-- What comes next is one of these, or nothing. -/
def Follows (allowed rest : List Token) : Prop := ∀ t ∈ rest.head?, t ∈ allowed

/-- What may come behind a line, a pipe and a command. -/
def lineEnd : List Token := [.close]
def pipeEnd : List Token := [.close, .semi, .amp]
def execEnd : List Token := [.close, .semi, .amp, .bar]

def NoRedir (rest : List Token) : Prop := ∀ t ∈ rest.head?, ∀ d : Direction, t ≠ d.token

def NoWord (rest : List Token) : Prop := ∀ t ∈ rest.head?, ∀ w, t ≠ .word w

theorem Follows.mono {allowed allowed' : List Token} (follows : Follows allowed rest)
    (more : allowed ⊆ allowed') : Follows allowed' rest := fun t first => more (follows t first)

theorem Follows.cons {allowed : List Token} (inside : t ∈ allowed) :
    Follows allowed (t :: rest) := by
  intro u first
  cases first
  exact inside

theorem Follows.noRedir (follows : Follows execEnd rest) : NoRedir rest := by
  intro t first d same
  have inside := follows t first
  subst same
  cases d <;> simp [execEnd, Direction.token] at inside

theorem Follows.noWord (follows : Follows execEnd rest) : NoWord rest := by
  intro t first w same
  have inside := follows t first
  subst same
  simp [execEnd] at inside

theorem Follows.amps (follows : Follows [.close, .semi] rest) (amps : Nat) :
    Follows pipeEnd (replicate amps .amp ++ rest) := by
  cases amps with
  | zero => exact follows.mono (by simp [pipeEnd])
  | succ n => exact .cons (by simp [pipeEnd])

/-- A repetition is read in one way if its items are, and if what follows does not start as an item
does. -/
theorem repeat_unique {α : Type} {toks : α → List Token} {Next Stop : List Token → Prop}
    (item : ∀ a b r r', Next r → Next r' → toks a ++ r = toks b ++ r' → a = b ∧ r = r')
    (next : ∀ a r, Next (toks a ++ r)) (last : ∀ r, Stop r → Next r)
    (apart : ∀ a r, ¬ Stop (toks a ++ r)) :
    ∀ (as bs : List α) {r r' : List Token}, Stop r → Stop r' →
      as.flatMap toks ++ r = bs.flatMap toks ++ r' → as = bs ∧ r = r' := by
  have follows : ∀ (as : List α) {r : List Token}, Stop r → Next (as.flatMap toks ++ r) := by
    intro as r stops
    cases as with
    | nil => exact last r stops
    | cons a as =>
      rw [flatMap_cons, append_assoc]
      exact next a _
  intro as
  induction as with
  | nil =>
    intro bs r r' stops stops' same
    cases bs with
    | nil => exact ⟨rfl, same⟩
    | cons b bs =>
      rw [flatMap_nil, nil_append, flatMap_cons, append_assoc] at same
      subst same
      exact absurd stops (apart b _)
  | cons a as ih =>
    intro bs r r' stops stops' same
    cases bs with
    | nil =>
      rw [flatMap_nil, nil_append, flatMap_cons, append_assoc] at same
      subst same
      exact absurd stops' (apart a _)
    | cons b bs =>
      rw [flatMap_cons, flatMap_cons, append_assoc, append_assoc] at same
      obtain ⟨rfl, others⟩ := item a b _ _ (follows as stops) (follows bs stops') same
      obtain ⟨rfl, rfl⟩ := ih bs stops stops' others
      exact ⟨rfl, rfl⟩

theorem Direction.token_inj {d e : Direction} (same : d.token = e.token) : d = e := by
  cases d <;> cases e <;> simp [Direction.token] at same ⊢

theorem redirs_unique {as bs : List Redir} (stops : NoRedir r) (stops' : NoRedir r')
    (same : as.flatMap Redir.toks ++ r = bs.flatMap Redir.toks ++ r') : as = bs ∧ r = r' := by
  refine @repeat_unique Redir Redir.toks (fun _ => True) NoRedir ?_ (fun _ _ => trivial)
    (fun _ _ => trivial) ?_ as bs r r' stops stops' same
  · rintro ⟨d, f⟩ ⟨e, g⟩ r r' - - same
    simp only [Redir.toks, cons_append, nil_append, cons.injEq, Token.word.injEq]
      at same
    obtain ⟨directions, rfl, rfl⟩ := same
    cases Direction.token_inj directions
    exact ⟨rfl, rfl⟩
  · intro a r none
    exact none _ rfl a.direction rfl

theorem args_unique {as bs : List Arg} (stops : NoRedir r ∧ NoWord r)
    (stops' : NoRedir r' ∧ NoWord r') (same : as.flatMap Arg.toks ++ r = bs.flatMap Arg.toks ++ r')
    :
    as = bs ∧ r = r' := by
  refine @repeat_unique Arg Arg.toks NoRedir (fun r => NoRedir r ∧ NoWord r) ?_ ?_
    (fun _ stops => stops.1) ?_ as bs r r' stops stops' same
  · rintro ⟨w, ws⟩ ⟨v, vs⟩ r r' next next' same
    simp only [Arg.toks, cons_append, cons.injEq, Token.word.injEq] at same
    obtain ⟨rfl, same⟩ := same
    obtain ⟨rfl, rfl⟩ := redirs_unique next next' same
    exact ⟨rfl, rfl⟩
  · intro a r t first d
    cases first
    cases d <;> simp [Direction.token]
  · rintro a r ⟨-, none⟩
    exact none _ rfl a.word rfl

theorem noRedir_args (as : List Arg) (stops : NoRedir r) : NoRedir (as.flatMap Arg.toks ++ r) := by
  cases as with
  | nil => exact stops
  | cons a as =>
    intro t first d
    cases first
    cases d <;> simp [Direction.token]

/-- A command without parentheses does not start with one. -/
theorem simple_ne_open (rs : List Redir) (as : List Arg) (follows : Follows execEnd r) :
    rs.flatMap Redir.toks ++ as.flatMap Arg.toks ++ r ≠ .open :: rest := by
  intro same
  cases rs with
  | cons a rs =>
    obtain ⟨d, file⟩ := a
    cases d <;> simp [Redir.toks, Direction.token] at same
  | nil =>
    cases as with
    | cons a as => simp [Arg.toks] at same
    | nil =>
      subst same
      exact absurd (follows .open rfl) (by decide)

theorem amps_unique {n m : Nat} (stops : Follows [.close, .semi] r)
    (stops' : Follows [.close, .semi] r')
    (same : replicate n Token.amp ++ r = replicate m .amp ++ r') : n = m ∧ r = r' := by
  induction n generalizing m with
  | zero =>
    cases m with
    | zero => exact ⟨rfl, same⟩
    | succ m =>
      subst same
      simpa using stops .amp rfl
  | succ n ih =>
    cases m with
    | zero =>
      subst same
      simpa using stops' .amp rfl
    | succ m =>
      obtain ⟨rfl, rest⟩ := ih (cons.inj same).2
      exact ⟨rfl, rest⟩

theorem Follows.semi_or_close (follows : Follows lineEnd rest) :
    Follows [.close, .semi] rest := follows.mono (by simp [lineEnd])

theorem not_follows {allowed : List Token} (follows : Follows allowed (t :: rest))
    (outside : t ∉ allowed) : False := outside (follows t rfl)

mutual

theorem Line.unique_before : ∀ (l l' : Line) {r r' : List Token}, Follows lineEnd r →
    Follows lineEnd r' → l.toks ++ r = l'.toks ++ r' → l = l' ∧ r = r'
  | .one p n, .one p' n', r, r', follows, follows', same => by
    simp only [Line.toks, append_assoc] at same
    have stops := follows.semi_or_close
    have stops' := follows'.semi_or_close
    obtain ⟨rfl, amps⟩ := Pipe.unique_before p p' (stops.amps n) (stops'.amps n') same
    obtain ⟨rfl, rfl⟩ := amps_unique stops stops' amps
    exact ⟨rfl, rfl⟩
  | .seq p n l, .seq p' n' l', r, r', follows, follows', same => by
    simp only [Line.toks, append_assoc, cons_append] at same
    have stops : ∀ rest, Follows [.close, .semi] (.semi :: rest) := fun _ => .cons (by simp)
    obtain ⟨rfl, amps⟩ := Pipe.unique_before p p' ((stops _).amps n) ((stops _).amps n') same
    obtain ⟨rfl, tail⟩ := amps_unique (stops _) (stops _) amps
    obtain ⟨rfl, rfl⟩ := Line.unique_before l l' follows follows' (cons.inj tail).2
    exact ⟨rfl, rfl⟩
  | .one p n, .seq p' n' l', r, r', follows, follows', same => by
    simp only [Line.toks, append_assoc, cons_append] at same
    have stops := follows.semi_or_close
    have stops' : Follows [.close, .semi] (.semi :: (l'.toks ++ r')) := .cons (by simp)
    obtain ⟨rfl, amps⟩ := Pipe.unique_before p p' (stops.amps n) (stops'.amps n') same
    obtain ⟨rfl, rfl⟩ := amps_unique stops stops' amps
    exact (not_follows follows (by decide)).elim
  | .seq p n l, .one p' n', r, r', follows, follows', same => by
    simp only [Line.toks, append_assoc, cons_append] at same
    have stops : Follows [.close, .semi] (.semi :: (l.toks ++ r)) := .cons (by simp)
    have stops' := follows'.semi_or_close
    obtain ⟨rfl, amps⟩ := Pipe.unique_before p p' (stops.amps n) (stops'.amps n') same
    obtain ⟨rfl, rfl⟩ := amps_unique stops stops' amps
    exact (not_follows follows' (by decide)).elim

theorem Pipe.unique_before : ∀ (p p' : Pipe) {r r' : List Token}, Follows pipeEnd r →
    Follows pipeEnd r' → p.toks ++ r = p'.toks ++ r' → p = p' ∧ r = r'
  | .one e, .one e', r, r', follows, follows', same => by
    obtain ⟨rfl, rfl⟩ := Exec.unique_before e e' (follows.mono (by simp [pipeEnd, execEnd]))
      (follows'.mono (by simp [pipeEnd, execEnd])) same
    exact ⟨rfl, rfl⟩
  | .bar e p, .bar e' p', r, r', follows, follows', same => by
    simp only [Pipe.toks, append_assoc, cons_append] at same
    obtain ⟨rfl, tail⟩ := Exec.unique_before e e' (.cons (by simp [execEnd]))
      (.cons (by simp [execEnd])) same
    obtain ⟨rfl, rfl⟩ := Pipe.unique_before p p' follows follows' (cons.inj tail).2
    exact ⟨rfl, rfl⟩
  | .one e, .bar e' p', r, r', follows, follows', same => by
    simp only [Pipe.toks, append_assoc, cons_append] at same
    obtain ⟨rfl, rfl⟩ := Exec.unique_before e e' (follows.mono (by simp [pipeEnd, execEnd]))
      (.cons (by simp [execEnd])) same
    exact (not_follows follows (by decide)).elim
  | .bar e p, .one e', r, r', follows, follows', same => by
    simp only [Pipe.toks, append_assoc, cons_append] at same
    obtain ⟨rfl, rfl⟩ := Exec.unique_before e e' (.cons (by simp [execEnd]))
      (follows'.mono (by simp [pipeEnd, execEnd])) same
    exact (not_follows follows' (by decide)).elim

theorem Exec.unique_before : ∀ (e e' : Exec) {r r' : List Token}, Follows execEnd r →
    Follows execEnd r' → e.toks ++ r = e'.toks ++ r' → e = e' ∧ r = r'
  | .block l rs, .block l' rs', r, r', follows, follows', same => by
    simp only [Exec.toks, append_assoc, cons_append, cons.injEq, true_and] at same
    obtain ⟨rfl, tail⟩ := Line.unique_before l l' (.cons (by simp [lineEnd]))
      (.cons (by simp [lineEnd])) same
    obtain ⟨rfl, rfl⟩ := redirs_unique follows.noRedir follows'.noRedir (cons.inj tail).2
    exact ⟨rfl, rfl⟩
  | .simple rs as few, .simple rs' as' few', r, r', follows, follows', same => by
    simp only [Exec.toks, append_assoc] at same
    obtain ⟨rfl, args⟩ := redirs_unique (noRedir_args as follows.noRedir)
      (noRedir_args as' follows'.noRedir) same
    obtain ⟨rfl, rfl⟩ := args_unique ⟨follows.noRedir, follows.noWord⟩
      ⟨follows'.noRedir, follows'.noWord⟩ args
    exact ⟨rfl, rfl⟩
  | .block l rs, .simple rs' as' few', r, r', follows, follows', same =>
    (simple_ne_open rs' as' follows' same.symm).elim
  | .simple rs as few, .block l' rs', r, r', follows, follows', same =>
    (simple_ne_open rs as follows same).elim

end

/-- **Tokens are derived in one way.** -/
theorem Line.unique {l l' : Line} (same : l.toks = l'.toks) : l = l' := by
  have none : Follows lineEnd [] := by simp [Follows]
  exact (Line.unique_before l l' none none (by rw [same])).1

end Xv6.Sh
