import Statechart.Proofs.Action.Grammar
import Statechart.Proofs.Action.Trailing
import Statechart.Proofs.Token.Reach

/-!
Assignments that compute, as texts. A target, an operator with an equals sign and a value are read
as one assignment, which is written out in full, whatever the texts of the two sides are, if the
operator has such a form at all (`update_written_out`). Each side is read on its own with a
semicolon behind it, so no comment is open at its end (`reaches_semicolon`), and what follows it may
be exchanged.
-/

namespace Statechart

theorem Pattern.StopsAt.ends {p : Pattern} {d : Char} (hp : p.StopsAt d)
    (hd : d ≠ '/' ∧ d ≠ '*') {x : List Char} (hx : x ≠ []) (rest : List Char) :
    p.Ends x (d :: rest) := by
  cases p with
  | run first more => exact hp
  | spelled options =>
    intro o ho hprefix
    obtain ⟨c, x, rfl⟩ := List.exists_cons_of_ne_nil hx
    cases o with
    | nil => exact List.nil_prefix
    | cons a o =>
      have hnot : d ∉ o := hp (a :: o) ho
      rw [← List.isPrefixOf_iff_prefix, List.cons_append, List.isPrefixOf_cons_cons,
        isPrefixOf_append hnot, ← List.isPrefixOf_cons_cons] at hprefix
      exact List.isPrefixOf_iff_prefix.mp hprefix
  | comment => exact ⟨by simpa using hd.1, by simpa using hd.2⟩

namespace Action

open Statechart.Expr (Lexeme settled closeBinary strength_lt)

/-! ## Sides of an assignment -/

/-- The tokens of the text derive an expression on level `n`. -/
def IsPhrase (n : Nat) (text : String) : Prop :=
  ∃ ts e, lexer.Cuts text.toList ts none ∧ Derives n ts e

/-- A comment to the end of the line takes up what is left of that line. -/
theorem reaches_line {r : List Char} (hr : '\n' ∉ r) (v : List Char) :
    lexer.Reaches ('/' :: '/' :: (r ++ v)) [] 0 (v.dropWhile (· != '\n')) := by
  have hall : ∀ c ∈ r, (c != '\n') = true := by
    intro c hc
    exact bne_iff_ne.mpr fun heq => hr (heq ▸ hc)
  have hdrop : ('/' :: '/' :: (r ++ v)).drop
      ('/' :: '/' :: (r ++ v).takeWhile (· != '\n')).length = v.dropWhile (· != '\n') := by
    rw [List.length_cons, List.drop_succ_cons, Label.Parts.drop_takeWhile,
      List.dropWhile_append_of_pos hall]
  have hdone : lexer.Reaches (('/' :: '/' :: (r ++ v)).drop
      ('/' :: '/' :: (r ++ v).takeWhile (· != '\n')).length) [] 0 (v.dropWhile (· != '\n')) := by
    rw [hdrop]
    exact .done _
  exact .drop rfl (match?_line (r ++ v)) rfl hdone

/-- A text that is cut to its end is also cut with other text behind it, unless a comment takes up
the rest of the line. -/
theorem reaches_parted {w v : List Char} {ts : List Lexeme} (h : lexer.Cuts w ts none)
    (hv : Parted v) : ∃ n, lexer.Reaches (w ++ v) ts n v ∨
      lexer.Reaches (w ++ v) ts n (v.dropWhile (· != '\n')) := by
  have hline {w : List Char} {ts : List Lexeme} (h : lexer.Cuts w ts none)
      (hopen : Pattern.OpenLine w) : lexer.Reaches (w ++ v) ts 0 (v.dropWhile (· != '\n')) := by
    obtain ⟨r, rfl, hr⟩ := hopen
    have hnone := (reaches_line hr []).cuts Lexer.Cuts.nil
    rw [List.append_nil] at hnone
    obtain ⟨rfl, -⟩ := h.unique hnone
    exact reaches_line hr v
  generalize hnone : none = none' at h
  induction h with
  | nil => exact ⟨0, .inl (.done v)⟩
  | stuck => cases hnone
  | skip hs _ ih =>
    obtain ⟨n, h⟩ := ih hnone
    exact ⟨n, h.imp (.skip hs) (.skip hs)⟩
  | @drop c cs m ts _ hs hm hk hcuts ih =>
    subst hnone
    by_cases hopen : Pattern.OpenLine (c :: cs)
    · exact ⟨0, .inr (hline (.drop hs hm hk hcuts) hopen)⟩
    · have hmatch := (Lexer.match?_parted stopsAt hv hopen).trans hm
      obtain ⟨n, h⟩ := ih rfl
      rw [← Lexer.drop_append hm v] at h
      exact ⟨m.lines + n, h.imp (.drop hs hmatch hk) (.drop hs hmatch hk)⟩
  | @keep c cs m k ts _ hs hm hk hcuts ih =>
    subst hnone
    by_cases hopen : Pattern.OpenLine (c :: cs)
    · exact ⟨0, .inr (hline (.keep hs hm hk hcuts) hopen)⟩
    · have hmatch := (Lexer.match?_parted stopsAt hv hopen).trans hm
      obtain ⟨n, h⟩ := ih rfl
      rw [← Lexer.drop_append hm v] at h
      exact ⟨m.lines + n, h.imp (.keep hs hmatch hk) (.keep hs hmatch hk)⟩

/-- The tokens of an expression start a statement. -/
theorem foldlM_of_reads {t : Lexeme} {ts : List Lexeme} {p : Expr.Position}
    (h : Reads (.operand []) (t :: ts) p) :
    (t :: ts).foldlM next reader.start = some ⟨0, [], .statement p⟩ := by
  obtain ⟨p₁, hp₁, h⟩ := Option.bind_eq_some_iff.mp h
  have hstart := Except.ok.inj (advance?_eq_some.mp hp₁)
  rw [List.foldlM_cons, reader, next_boundary 0 [] hstart]
  exact Reads.foldlM h 0 []

/-- What is derived is read up to an operand. -/
theorem foldlM_operand {n : Nat} {ts : List Lexeme} {e : Expr} (h : Derives n ts e) :
    ∃ gs e₀ x, ts.foldlM next reader.start = some ⟨0, [], .statement (.after gs e₀ x)⟩ := by
  obtain ⟨gs, e₀, x, hreads, -⟩ := (h.mono (Nat.zero_le n)).reads [] fun _ => trivial
  cases ts with
  | nil => cases hreads
  | cons t ts => exact ⟨gs, e₀, x, foldlM_of_reads hreads⟩

/-- An operator behind an operand asks for another one. -/
theorem foldlM_operator {ts : List Lexeme} {e : Expr} (h : Derives 12 ts e) (op : BinaryOp)
    (s : String) :
    List.foldlM next reader.start (ts ++ [(.binary op, s)]) =
      some ⟨0, [], .statement (.operand [.binary op e])⟩ := by
  have hlt := strength_lt op
  have hlevel := h.mono (Nat.add_le_add_right (Nat.le_of_lt hlt) 2)
  obtain ⟨gs, e₀, x, hreads, hx, -, hsettled⟩ := hlevel.reads [] fun _ => trivial
  have hclosed : settled (closeBinary op.strength) gs e₀ = .ok ([], e) :=
    hsettled _ (absorbs_closeBinary _)
  have hbelow : Below (op.strength + 2) [] := trivial
  have hoperator := hreads.append (reads_binary (hx (by omega)) hbelow hclosed s)
  cases ts with
  | nil => cases hreads
  | cons t ts => exact foldlM_of_reads hoperator

/-- A phrase that can be read with a semicolon behind it reaches that semicolon. -/
theorem reaches_semicolon {n line : Nat} {text : String} {ts : List Lexeme} {e : Expr}
    {items : List Item} (hcuts : lexer.Cuts text.toList ts none) (hts : Derives n ts e)
    (h : (read line (text ++ ";")).1 = .ok items) :
    items = [.statement e] ∧ ∃ m, lexer.Reaches (text.toList ++ [';']) ts m [';'] := by
  obtain ⟨-, us, s, hus, hrun, hfinish⟩ := read_eq_ok.mp h
  have htext : (text ++ ";").toList = text.toList ++ [';'] := by simp
  rw [htext] at hus
  have hv : Parted [';'] := ⟨by simp [stops], by simp⟩
  obtain ⟨m, hreaches | hreaches⟩ := reaches_parted hcuts hv
  · obtain ⟨rfl, -⟩ := hus.unique (hreaches.cuts cuts_semicolon)
    have hread := foldlM_of_derives (hts.mono (Nat.zero_le n)) ";" 0 []
    obtain rfl := Option.some.inj (hrun.symm.trans hread)
    cases hfinish
    exact ⟨rfl, m, hreaches⟩
  · -- the comment takes up the semicolon, and the statement does not end
    obtain ⟨rfl, -⟩ := hus.unique (hreaches.cuts (.nil : lexer.Cuts [] [] none))
    obtain ⟨gs, e₀, x, hoperand⟩ := foldlM_operand hts
    rw [List.append_nil, hoperand] at hrun
    cases hrun
    cases hfinish

/-! ## Operators with an equals sign -/

/-- The operators that have a form which stores its result, and the one that should have one. -/
def updates : List BinaryOp :=
  [.add, .sub, .mul, .div, .mod, .bitAnd, .bitXor, .bitOr, .shiftRight, .shiftLeft]

theorem updates_cases : ∀ op ∈ updates, op = .bitXor ∨ ∃ u : UpdateOp, u.binary = op := by
  intro op hop
  simp only [updates, List.mem_cons, List.not_mem_nil, or_false] at hop
  rcases hop with rfl | rfl | rfl | rfl | rfl | rfl | rfl | rfl | rfl | rfl
  · exact .inr ⟨.add, rfl⟩
  · exact .inr ⟨.sub, rfl⟩
  · exact .inr ⟨.mul, rfl⟩
  · exact .inr ⟨.div, rfl⟩
  · exact .inr ⟨.mod, rfl⟩
  · exact .inr ⟨.bitAnd, rfl⟩
  · exact .inl rfl
  · exact .inr ⟨.bitOr, rfl⟩
  · exact .inr ⟨.shiftRight, rfl⟩
  · exact .inr ⟨.shiftLeft, rfl⟩

/-- The operator wins against the shorter tokens that it starts with. -/
theorem match?_update (u : UpdateOp) (rest : List Char) :
    lexer.match? (u.binary.spelling.toList ++ '=' :: rest) =
      some ⟨some (.assign (.update u)), u.binary.spelling.toList ++ ['='], 0⟩ := by
  cases u <;> rfl

theorem cuts_update (u : UpdateOp) {y : List Char} {us : List Lexeme}
    (h : lexer.Cuts y us none) :
    lexer.Cuts (' ' :: (u.binary.spelling.toList ++ '=' :: ' ' :: y))
      ((.assign (.update u), u.binary.spelling ++ "=") :: us) none := by
  have htext : (u.binary.spelling ++ "=").toList = u.binary.spelling.toList ++ ['='] := by simp
  have hsplit : u.binary.spelling.toList ++ '=' :: ' ' :: y =
      (u.binary.spelling ++ "=").toList ++ ' ' :: y := by simp
  have hmatch : lexer.match? ((u.binary.spelling ++ "=").toList ++ ' ' :: y) =
      some ⟨some (.assign (.update u)), (u.binary.spelling ++ "=").toList, 0⟩ := by
    rw [← hsplit, htext]
    exact match?_update u (' ' :: y)
  have hhead : (u.binary.spelling ++ "=").toList.head?.all lexer.skipped = false := by
    rw [htext]
    cases u <;> rfl
  rw [hsplit]
  have hskip : lexer.Cuts (' ' :: y) us none := .skip rfl h
  exact .skip rfl (.token (t := (.assign (.update u), u.binary.spelling ++ "=")) hhead hmatch hskip)

/-- The sign of the exclusive or is a token of its own, also in front of an equals sign. -/
theorem cuts_xor {y : List Char} {us : List Lexeme} (h : lexer.Cuts y us none) :
    lexer.Cuts (' ' :: '^' :: '=' :: ' ' :: y)
      ((.binary .bitXor, "^") :: (.assign .store, "=") :: us) none :=
  .skip rfl (.keep (m := ⟨some (.binary .bitXor), ['^'], 0⟩) rfl rfl rfl
    (.keep (m := ⟨some (.assign .store), ['='], 0⟩) rfl rfl rfl (.skip rfl h)))

/-- What comes behind a phrase that can be read with a semicolon may be exchanged for any text that
starts with a blank. -/
theorem cuts_exchange {n m : Nat} {x z : List Char} {ts us : List Lexeme} {e : Expr}
    (hts : Derives n ts e) (h : lexer.Reaches (x ++ [';']) ts m [';'])
    (hz : lexer.Cuts (' ' :: z) us none) : lexer.Cuts (x ++ ' ' :: z) (ts ++ us) none := by
  have hread := foldlM_of_derives (hts.mono (Nat.zero_le n)) ";" 0 []
  have hblank : ' ' ∈ stops := by decide
  refine (h.switch Readable.tail closed_of_readable rfl ⟨_, _, hread⟩ cuts_semicolon rfl ?_).cuts hz
  intro x' _ _ _ _ _ _ _ hx' r hr
  exact (stopsAt r hr ' ' hblank).ends (stops_ne ' ' hblank) hx' z

/-- One side of an assignment: its tokens, what they derive and how that is written. -/
theorem exists_side {n line : Nat} {text S owner : String} {vars : Variables}
    (htext : IsPhrase n text) (h : (parse line (text ++ ";") owner vars).1 = .ok ([S], vars)) :
    ∃ ts e m, Derives n ts e ∧ lexer.Reaches (text.toList ++ [';']) ts m [';'] ∧
      S = e.render (rename owner vars) ∧ text.toList.head? ≠ some '=' := by
  obtain ⟨ts, e, hcuts, hts⟩ := htext
  obtain ⟨items, hread, hitems⟩ := parse_eq_ok.mp h
  obtain ⟨rfl, m, hreaches⟩ := reaches_semicolon hcuts hts hread
  refine ⟨ts, e, m, hts, hreaches, ?_, fun hhead => ?_⟩
  · cases hitems
    rfl
  · obtain ⟨rest, hchars⟩ := List.head?_eq_some_iff.mp hhead
    refine (read_eq_ok.mp hread).1 ?_
    rw [String.toList_append, hchars]
    rfl

theorem updated_toList (l r spelling : String) :
    (l ++ " " ++ spelling ++ "= " ++ r ++ ";").toList =
      l.toList ++ ' ' :: (spelling.toList ++ '=' :: ' ' :: (r.toList ++ [';'])) := by
  simp

/-- For every operator with a form that stores its result, the target, the operator with an equals
sign and the value are read as one assignment that is written out in full. The exclusive or has no
such form: its sign and the equals sign stay two tokens, and the second one is refused. -/
theorem update_written_out {op : BinaryOp} (hop : op ∈ updates) {l r L R owner : String}
    {vars : Variables} {l₁ l₂ : Nat} (hl : IsPhrase 12 l)
    (hL : (parse l₁ (l ++ ";") owner vars).1 = .ok ([L], vars)) (hr : IsPhrase 1 r)
    (hR : (parse l₂ (r ++ ";") owner vars).1 = .ok ([R], vars)) (line : Nat) :
    (op ≠ .bitXor →
      (parse line (l ++ " " ++ op.spelling ++ "= " ++ r ++ ";") owner vars).1 =
        .ok ([L ++ " = (" ++ L ++ ") " ++ op.spelling ++ " (" ++ R ++ ")"], vars)) ∧
    (op = .bitXor → ∃ n,
      (parse line (l ++ " " ++ op.spelling ++ "= " ++ r ++ ";") owner vars).1 =
        .error (.unexpected n "=")) := by
  obtain ⟨ts, t, m, hts, hreachl, rfl, hhead⟩ := exists_side hl hL
  obtain ⟨us, v, m', hus, hreachr, rfl, -⟩ := exists_side hr hR
  have hvalue := hreachr.cuts cuts_semicolon
  have hfront (rest : List Char) : (l.toList ++ ' ' :: rest).head? ≠ some '=' := by
    cases hchars : l.toList with
    | nil => simp
    | cons c cs =>
      rw [hchars] at hhead
      exact hhead
  constructor
  · intro hne
    obtain ⟨u, rfl⟩ := (updates_cases op hop).resolve_left hne
    refine parse_eq_ok.mpr ⟨[.statement (.assign (.update u) t v)], ?_, rfl⟩
    rw [read_eq_ok, updated_toList]
    have hcuts := cuts_exchange hts hreachl (cuts_update u hvalue)
    have hderives : Derives 1 (ts ++ (.assign (.update u), u.binary.spelling ++ "=") :: us)
        (.assign (.update u) t v) := .assign _ hts hus
    have hrun := foldlM_of_derives (hderives.mono (Nat.zero_le 1)) ";" 0 []
    rw [List.append_assoc] at hrun
    exact ⟨hfront _, _, _, hcuts, hrun, rfl⟩
  · rintro rfl
    have hcuts := cuts_exchange hts hreachl (cuts_xor hvalue)
    rw [List.append_cons ts] at hcuts
    have hrefuses : reader.Refuses next (fun f => ∃ n, f = .unexpected n "=") reader.start
        ((ts ++ [(Symbol.binary .bitXor, "^")]) ++
          ((Symbol.assign .store, "=") :: (us ++ [(Symbol.semicolon, ";")]))) := by
      refine .append (foldlM_operator hts .bitXor "^") (.inl fun u hu => ?_)
      have hkind : u.kind = .assign .store := congrArg Prod.fst hu
      refine ⟨.unexpected u.line "=", ?_, u.line, rfl⟩
      show step _ u = _
      rw [step, hkind]
      rfl
    obtain ⟨f, hf, n, rfl⟩ := hrefuses.run advances hcuts line
    refine ⟨n, ?_⟩
    have hread : (read line (l ++ " " ++ BinaryOp.bitXor.spelling ++ "= " ++ r ++ ";")).1 =
        .error (.unexpected n "=") := by
      rw [read, updated_toList, scan_of_head (hfront _)]
      exact hf
    show (read line _).1.map _ = _
    rw [hread]
    rfl

/-- A bit is set in an entry of a list, and what is stored is itself a computed assignment with a
step in it. -/
theorem update_written_out_mask :
    (parse 1 ("-v[0] /* low */" ++ ";") "" .empty).1 = .ok (["-v[0]"], .empty) ∧
      (parse 1 ("w >>= n--" ++ ";") "" .empty).1 = .ok (["w = (w) >> (n = n - 1)"], .empty) ∧
      (parse 1 ("-v[0] /* low */" ++ " " ++ BinaryOp.bitOr.spelling ++ "= " ++ "w >>= n--" ++ ";")
          "" .empty).1 =
        .ok (["-v[0]" ++ " = (" ++ "-v[0]" ++ ") " ++ BinaryOp.bitOr.spelling ++ " (" ++
          "w = (w) >> (n = n - 1)" ++ ")"], .empty) := by
  have hl : IsPhrase 12 "-v[0] /* low */" := by
    have hcuts := lexer.cuts_scan 1 "-v[0] /* low */".toList
    have htokens : (lexer.scan 1 "-v[0] /* low */".toList).tokens.map Token.bare =
        [(.binary .sub, "-"), (.identifier, "v"), (.leftBracket, "["), (.number, "0"),
          (.rightBracket, "]")] := by
      decide +kernel
    have htail : (lexer.scan 1 "-v[0] /* low */".toList).tail.rest? = none := by decide +kernel
    rw [htokens, htail] at hcuts
    have hindex : Derives 0 [(.number, "0")] (.atom "0") :=
      (Derives.number "0").mono (Nat.zero_le 13)
    exact ⟨_, _, hcuts, .sign "-" rfl (.index "[" "]" (.identifier "v") hindex)⟩
  have hr : IsPhrase 1 "w >>= n--" := by
    have hcuts := lexer.cuts_scan 1 "w >>= n--".toList
    have htokens : (lexer.scan 1 "w >>= n--".toList).tokens.map Token.bare =
        [(.identifier, "w"), (.assign (.update .shiftRight), ">>="), (.identifier, "n"),
          (.step .down, "--")] := by
      decide +kernel
    have htail : (lexer.scan 1 "w >>= n--".toList).tail.rest? = none := by decide +kernel
    rw [htokens, htail] at hcuts
    exact ⟨_, _, hcuts, .assign ">>=" (.tighter (.identifier "w"))
      (.stepBehind "--" (.tighter (.identifier "n")))⟩
  have hL : (parse 1 ("-v[0] /* low */" ++ ";") "" .empty).1 = .ok (["-v[0]"], .empty) := by
    decide +kernel
  have hR : (parse 1 ("w >>= n--" ++ ";") "" .empty).1 =
      .ok (["w = (w) >> (n = n - 1)"], .empty) := by
    decide +kernel
  have hop : BinaryOp.bitOr ∈ updates := by decide
  exact ⟨hL, hR, (update_written_out hop hl hL hr hR 1).1 (by decide)⟩

/-- The exclusive or with an equals sign can not be read, while both sides can. -/
theorem xor_update_refused :
    (parse 1 ("a" ++ ";") "" .empty).1 = .ok (["a"], .empty) ∧
      (parse 1 ("b" ++ ";") "" .empty).1 = .ok (["b"], .empty) ∧
      (parse 1 "a ^= b;" "" .empty).1 = .error (.unexpected 1 "=") := by
  decide +kernel

end Action

end Statechart
