import Mathlib.Data.List.Chain
import Mapsmith.Script.Layout
import Mapsmith.Proofs.Script.Completeness
import Mapsmith.Proofs.Script.Derivations
import Mapsmith.Proofs.Script.Spelling

/-!
# Tokens beside one another

`Derives.joins`: where the layout leaves no space between two tokens, the second does not go on
with the first. This is a property of their kinds, and it holds of all that the grammar lets
stand beside one another.
-/

namespace Mapsmith.Script

-- ---------------------------------------------------------------------------
-- Two tokens
-- ---------------------------------------------------------------------------

namespace TokenKind

/-- The kinds that are spelled with signs. -/
def isSign : TokenKind → Bool
  | .assign | .delimiter _ => true
  | .operator .and | .operator .or | .operator .not => false
  | .operator _ => true
  | _ => false

/-- Whether a token keeps apart from another one that follows it without a space. -/
def apart (left right : TokenKind) : Bool :=
  match left with
  | .operator .divide => right != .operator .divide
  | .operator .less | .operator .greater | .assign => right != .assign && right != .operator .equal
  | .literal .string | .literal .rawId => true
  | .literal _ => right.isSign
  | kind => !kind.isWord || right.isSign

end TokenKind

theorem not_isSign_of_isWord {kind : TokenKind} (h : kind.isWord = true) : kind.isSign = false := by
  cases kind with
  | operator op => cases op <;> first | rfl | cases h
  | assign | delimiter | newline => cases h
  | _ => rfl

theorem first_of_isSign (h : LexemeAt first input kind n) (hsign : kind.isSign = true) :
    first ∈ signCharacters := by
  cases h with
  | newline | string | rawId | number => cases hsign
  | word => rw [not_isSign_of_isWord (ofWord_isWord _)] at hsign; cases hsign
  | sign h => exact signRest?_first h

/-- Two of the signs go on with a sign that starts alike. -/
theorem divide_of_first (h : LexemeAt '/' input kind n) : kind = .operator .divide := by
  have hdivide : lexemeRest? '/' input = some (.operator .divide, 0) := rfl
  exact (h.unique (lexemeRest?_iff.mp hdivide)).1

theorem equals_of_first (h : LexemeAt '=' input kind n) :
    kind = .assign ∨ kind = .operator .equal := by
  have hequals : lexemeRest? '=' input =
      some (if input.head? = some '=' then (.operator .equal, 1) else (.assign, 0)) := rfl
  have heq := hequals.symm.trans (lexemeRest?_iff.mpr h)
  split at heq
  · cases heq
    exact .inr rfl
  · cases heq
    exact .inl rfl

theorem goesOn_of_apart {left right : TokenKind} (h : LexemeAt first input right n)
    (ha : left.apart right = true) : left.goesOn first = false := by
  have hsigns : ∀ c ∈ signCharacters, goesOnNumber c = false := by
    simp [signCharacters, goesOnNumber, isWordCharacter]
  have hsign (hright : right.isSign = true) : goesOnNumber first = false :=
    hsigns first (first_of_isSign h hright)
  have hdivide (hright : (right != .operator .divide) = true) : (first == '/') = false := by
    rw [beq_eq_false_iff_ne]
    rintro rfl
    simp [divide_of_first h] at hright
  have hequals (hright : (right != .assign && right != .operator .equal) = true) :
      (first == '=') = false := by
    rw [beq_eq_false_iff_ne]
    rintro rfl
    obtain rfl | rfl := equals_of_first h <;> cases hright
  cases left with
  | operator op => cases op <;> first | rfl | exact hdivide ha | exact hequals ha | exact hsign ha
  | assign => exact hequals ha
  | literal kind => cases kind <;> first | rfl | exact hsign ha
  | delimiter | newline => rfl
  | builtin | keyword | identifier => exact hsign ha

/-- Whether a piece may be written after another one, with the space that goes between
them. A line break needs none, but two do not follow one another. -/
def adjoins (left right : Piece) : Bool :=
  if left.token.kind = .newline ∨ right.token.kind = .newline then
    left.token.kind != right.token.kind
  else spaced left right || left.token.kind.apart right.token.kind

def TokenKind.joins (left right : TokenKind) : Bool :=
  adjoins (.ofToken ⟨left, ""⟩) (.ofToken ⟨right, ""⟩)

-- ---------------------------------------------------------------------------
-- Runs of tokens
-- ---------------------------------------------------------------------------

/-- Each kind joins the next one, the first is of one class and the last of another. -/
structure Joined (start stop : TokenKind → Bool) (kinds : List TokenKind) : Prop where
  chain : kinds.IsChain fun left right => left.joins right = true
  head : ∀ kind ∈ kinds.head?, start kind = true
  last : ∀ kind ∈ kinds.getLast?, stop kind = true

variable {start start' stop stop' : TokenKind → Bool}

theorem joined_nil : Joined start stop [] := ⟨.nil, nofun, nofun⟩

theorem joined_singleton (hstart : start kind = true) (hstop : stop kind = true) :
    Joined start stop [kind] :=
  ⟨.singleton kind, by simpa using hstart, by simpa using hstop⟩

theorem Joined.imp (h : Joined start stop kinds)
    (hstart : ∀ kind, start kind = true → start' kind = true)
    (hstop : ∀ kind, stop kind = true → stop' kind = true) : Joined start' stop' kinds :=
  ⟨h.chain, fun kind hk => hstart kind (h.head kind hk), fun kind hk => hstop kind (h.last kind hk)⟩

theorem Joined.append (h : Joined start stop first) (h' : Joined start' stop' rest)
    (hjoin : ∀ left right, stop left = true → start' right = true → left.joins right = true)
    (hstart : first = [] → ∀ kind, start' kind = true → start kind = true)
    (hstop : rest = [] → ∀ kind, stop kind = true → stop' kind = true) :
    Joined start stop' (first ++ rest) := by
  refine ⟨List.isChain_append.mpr ⟨h.chain, h'.chain, fun left hl right hr =>
    hjoin left right (h.last left hl) (h'.head right hr)⟩, ?_, ?_⟩
  · cases first with
    | nil => exact fun kind hk => hstart rfl kind (h'.head kind hk)
    | cons kind first => exact h.head
  · cases rest with
    | nil =>
      rw [List.append_nil]
      exact fun kind hk => hstop rfl kind (h.last kind hk)
    | cons kind rest =>
      intro last hl
      refine h'.last last ?_
      simpa [List.getLast?_append] using hl

theorem Joined.cons (hstart : start kind = true) (h : Joined start' stop kinds)
    (hjoin : ∀ right, start' right = true → kind.joins right = true)
    (hstop : kinds = [] → stop kind = true) : Joined start stop (kind :: kinds) := by
  have hfirst : Joined start (· == kind) [kind] := joined_singleton hstart (by simp)
  refine hfirst.append h (fun left right hl => ?_) nofun fun hnil left hl => ?_
  · rw [beq_iff_eq.mp hl]
    exact hjoin right
  · rw [beq_iff_eq.mp hl]
    exact hstop hnil

-- ---------------------------------------------------------------------------
-- What the rules let stand beside one another
-- ---------------------------------------------------------------------------

namespace TokenKind

def endsValue : TokenKind → Bool
  | .identifier | .literal _ | .delimiter .closeParen | .delimiter .closeBracket => true
  | _ => false

def endsLine : TokenKind → Bool
  | .keyword .returnWord | .keyword .endif | .keyword .endloop => true
  | kind => kind.endsValue

def followsValue : TokenKind → Bool
  | .operator op => op.isBinary
  | .delimiter .closeParen | .delimiter .closeBracket | .delimiter .comma => true
  | .keyword .thenWord | .assign | .newline => true
  | _ => false

def beforeValue : TokenKind → Bool
  | .operator _ | .assign => true
  | .delimiter .openParen | .delimiter .openBracket | .delimiter .comma => true
  | .keyword .ifWord | .keyword .elseif | .keyword .exitwhen | .keyword .returnWord => true
  | _ => false

/-- What a line may start with that goes on with a branch or ends it. -/
def startsAlternative : TokenKind → Bool
  | .keyword .endif | .keyword .elseWord | .keyword .elseif => true
  | _ => false

theorem joins_eq {left right : TokenKind} (hl : left ≠ .newline) (hr : right ≠ .newline) :
    left.joins right = (spaced (.ofToken ⟨left, ""⟩) (.ofToken ⟨right, ""⟩) || left.apart right) :=
  if_neg (not_or.mpr ⟨hl, hr⟩)

theorem joins_of_hasSpaceAfter {left right : TokenKind} (hl : left ≠ .newline)
    (hr : right ≠ .newline)
    (h : (Piece.ofToken ⟨left, ""⟩).hasSpaceAfter = true) : left.joins right = true := by
  rw [joins_eq hl hr, spaced, h]
  rfl

theorem joins_newline {left : TokenKind} (hl : left ≠ .newline) : left.joins .newline = true := by
  simp [joins, adjoins, Piece.ofToken, hl]

theorem newline_joins {right : TokenKind} (hr : right ≠ .newline) :
    TokenKind.joins .newline right = true := by
  simp [joins, adjoins, Piece.ofToken, hr.symm]

theorem apart_of_isSign {left right : TokenKind} (hl : left.endsValue = true)
    (hr : right.isSign = true) : left.apart right = true := by
  cases left with
  | identifier => exact hr
  | literal kind => cases kind <;> first | rfl | exact hr
  | delimiter => rfl
  | _ => cases hl

theorem joins_of_endsValue {left right : TokenKind} (hl : left.endsValue = true)
    (hr : right.followsValue = true) : left.joins right = true := by
  have hleft : left ≠ .newline := by
    rintro rfl
    cases hl
  by_cases hright : right = .newline
  · rw [hright]
    exact joins_newline hleft
  · rw [joins_eq hleft hright, Bool.or_eq_true]
    cases right with
    | operator op =>
      cases op <;>
        first | exact .inr (apart_of_isSign hl rfl) | exact .inl (Bool.or_true _) | cases hr
    | delimiter | assign => exact .inr (apart_of_isSign hl rfl)
    | keyword word => cases word <;> first | exact .inl (Bool.or_true _) | cases hr
    | newline => exact absurd rfl hright
    | _ => cases hr

theorem joins_of_startsExpression {left right : TokenKind} (hl : left.beforeValue = true)
    (hr : right.startsExpression = true) : left.joins right = true := by
  have hne (kind : TokenKind) (hk : kind.startsExpression = false) : right ≠ kind := by
    rintro rfl
    rw [hr] at hk
    cases hk
  have hdivide := hne (.operator .divide) rfl
  have hassign := hne .assign rfl
  have hequal := hne (.operator .equal) rfl
  rw [joins_eq (by rintro rfl; cases hl) (hne .newline rfl), Bool.or_eq_true]
  cases left with
  | operator op => cases op <;> simp [spaced, Piece.hasSpaceAfter, Piece.ofToken, apart, isWord, *]
  | assign => exact .inl rfl
  | delimiter mark => exact .inr rfl
  | keyword word => cases word <;> first | exact .inl rfl | cases hl
  | _ => cases hl

end TokenKind

open TokenKind

def Rule.Joins (kinds : List TokenKind) : Rule → Prop
  | .expression | .operand => kinds ≠ [] ∧ Joined startsExpression endsValue kinds
  | .call => kinds ≠ [] ∧ Joined (· == .identifier) endsValue kinds
  | .links => Joined isBinaryOperator endsValue kinds
  | .arguments => Joined startsExpression endsValue kinds
  | .moreArguments => Joined (· == .delimiter .comma) endsValue kinds
  | .statement _ | .action _ => kinds ≠ [] ∧ Joined startsStatement endsLine kinds
  | .block _ => Joined startsStatement (· == .newline) kinds
  | .alternative _ => kinds ≠ [] ∧ Joined startsAlternative (· == .keyword .endif) kinds

theorem endsLine_of_endsValue {kind : TokenKind} (h : kind.endsValue = true) :
    kind.endsLine = true := by
  unfold endsLine
  split
  · rfl
  · rfl
  · rfl
  · exact h

theorem followsValue_of_isBinaryOperator {kind : TokenKind} (h : kind.isBinaryOperator = true) :
    kind.followsValue = true := by
  cases kind with
  | operator => exact h
  | _ => cases h

theorem Joined.startsWith (h : Joined (· == kind) stop kinds) (hk : start kind = true) :
    Joined start stop kinds :=
  h.imp (fun _ heq => beq_iff_eq.mp heq ▸ hk) fun _ => id

theorem Joined.push {right : TokenKind} (h : Joined (· == right) stop kinds) (left : TokenKind)
    (hne : kinds ≠ []) (hjoin : left.joins right = true) :
    Joined (· == left) stop (left :: kinds) :=
  Joined.cons (beq_self_eq_true left) h (fun _ heq => beq_iff_eq.mp heq ▸ hjoin)
    fun hnil => absurd hnil hne

theorem Joined.afterValue (h : Joined startsExpression stop kinds) (left : TokenKind)
    (hne : kinds ≠ []) (hleft : left.beforeValue = true) :
    Joined (· == left) stop (left :: kinds) :=
  Joined.cons (beq_self_eq_true left) h (fun _ hr => joins_of_startsExpression hleft hr)
    fun hnil => absurd hnil hne

theorem Joined.beforeRest (h : Joined startsExpression endsValue kinds) (hne : kinds ≠ [])
    (h' : Joined start stop rest) (hstart : ∀ kind, start kind = true → kind.followsValue = true)
    (hstop : rest = [] → ∀ kind, endsValue kind = true → stop kind = true) :
    Joined startsExpression stop (kinds ++ rest) :=
  h.append h' (fun _ _ hl hr => joins_of_endsValue hl (hstart _ hr))
  (fun hnil => absurd hnil hne) hstop

theorem Joined.between {right : TokenKind} (h : Joined startsExpression endsValue kinds)
    (left : TokenKind) (hne : kinds ≠ []) (hleft : left.beforeValue = true)
    (h' : Joined (· == right) stop (right :: rest))
    (hright : right.followsValue = true) :
    Joined (· == left) stop (left :: (kinds ++ right :: rest)) :=
  (h.beforeRest hne h' (fun _ heq => beq_iff_eq.mp heq ▸ hright) nofun).afterValue left
  (by simp) hleft

theorem joined_call (h : Joined startsExpression endsValue arguments) :
    Joined (· == .identifier) endsValue
    (.identifier :: .delimiter .openParen :: (arguments ++ [.delimiter .closeParen])) := by
  have hclose : Joined (· == .delimiter .closeParen) endsValue [.delimiter .closeParen] :=
    joined_singleton rfl rfl
  have hopen : Joined (· == .delimiter .openParen) endsValue
      (.delimiter .openParen :: (arguments ++ [.delimiter .closeParen])) := by
    by_cases hnil : arguments = []
    · subst hnil
      exact hclose.push _ nofun rfl
    · exact h.between _ hnil rfl hclose rfl
  exact hopen.push _ nofun rfl

theorem ne_newline_of_class {class' : TokenKind → Bool} (h : class' .newline = false)
    {kind : TokenKind} (hk : class' kind = true) : kind ≠ .newline := by
  rintro rfl
  rw [h] at hk
  cases hk

theorem Joined.below (h : Joined startsStatement (· == .newline) body) (h' : Joined start stop rest)
    (hstart : start .newline = false) (hne : rest ≠ []) :
    Joined (· == .newline) stop (.newline :: (body ++ rest)) := by
  have hlines : Joined (· != .newline) stop (body ++ rest) :=
    (h.imp (fun kind hk => bne_iff_ne.mpr (ne_newline_of_class rfl hk)) fun _ => id).append h'
      (fun _ right hl hr => beq_iff_eq.mp hl ▸ newline_joins (ne_newline_of_class hstart hr))
      (fun _ kind hk => bne_iff_ne.mpr (ne_newline_of_class hstart hk)) fun hnil => absurd hnil hne
  exact Joined.cons rfl hlines (fun right hr => newline_joins (bne_iff_ne.mp hr)) (by simp [hne])

theorem Joined.guarded (h : Joined startsExpression endsValue condition) (hne : condition ≠ [])
    (h' : Joined (· == .newline) stop (.newline :: rest)) (left : TokenKind)
    (hleft : left.beforeValue = true) :
    Joined (· == left) stop (left :: (condition ++ .keyword .thenWord :: .newline :: rest)) :=
  h.between left hne hleft (h'.push (.keyword .thenWord) nofun rfl) rfl

theorem Derives.joins (h : Derives rule n kinds) : rule.Joins kinds := by
  have hend {start : TokenKind → Bool} {kinds : List TokenKind} (h : Joined start endsValue kinds) :
      Joined start endsLine kinds := h.imp (fun _ => id) fun _ => endsLine_of_endsValue
  induction h with
  | expression _ _ ihfirst ihrest =>
    exact ⟨by simp [ihfirst.1], ihfirst.2.beforeRest ihfirst.1 ihrest
      (fun _ => followsValue_of_isBinaryOperator) fun _ _ => id⟩
  | noLinks => exact joined_nil
  | @links n op operand rest hop _ _ ihoperand ihrest =>
    have hrest := ihoperand.2.beforeRest ihoperand.1 ihrest
      (fun _ => followsValue_of_isBinaryOperator) fun _ _ => id
    exact (hrest.afterValue (.operator op) (by simp [ihoperand.1]) rfl).startsWith hop
  | @unary n op operand hop _ ih =>
    exact ⟨nofun, (ih.2.afterValue (.operator op) ih.1 rfl).startsWith hop⟩
  | literal => exact ⟨nofun, joined_singleton rfl rfl⟩
  | name => exact ⟨nofun, joined_singleton rfl rfl⟩
  | called _ ih => exact ⟨ih.1, ih.2.startsWith rfl⟩
  | element _ ih =>
    have hclose : Joined (· == .delimiter .closeBracket) endsValue [.delimiter .closeBracket] :=
      joined_singleton rfl rfl
    have hopen := ih.2.between (.delimiter .openBracket) ih.1 rfl hclose rfl
    exact ⟨nofun, (hopen.push .identifier nofun rfl).startsWith rfl⟩
  | function =>
    have hid : Joined (· == .identifier) endsValue [.identifier] := joined_singleton rfl rfl
    exact ⟨nofun, (hid.push (.keyword .function) nofun rfl).startsWith rfl⟩
  | parens _ ih =>
    have hclose : Joined (· == .delimiter .closeParen) endsValue [.delimiter .closeParen] :=
      joined_singleton rfl rfl
    exact ⟨nofun, (ih.2.between (.delimiter .openParen) ih.1 rfl hclose rfl).startsWith rfl⟩
  | call _ ih => exact ⟨nofun, joined_call ih⟩
  | noArguments => exact joined_nil
  | arguments _ _ ihfirst ihrest =>
    exact ihfirst.2.beforeRest ihfirst.1 ihrest (fun _ heq => beq_iff_eq.mp heq ▸ rfl) fun _ _ => id
  | lastArgument => exact joined_nil
  | moreArguments _ _ ihnext ihrest =>
    have hrest :=
      ihnext.2.beforeRest ihnext.1 ihrest (fun _ heq => beq_iff_eq.mp heq ▸ rfl) fun _ _ => id
    exact hrest.afterValue _ (by simp [ihnext.1]) rfl
  | action _ ih => exact ⟨ih.1, ih.2⟩
  | debug _ ih =>
    refine ⟨nofun, Joined.cons rfl ih.2 (fun right hr => ?_) fun hnil => absurd hnil ih.1⟩
    exact joins_of_hasSpaceAfter (by simp) (ne_newline_of_class rfl hr) rfl
  | exitwhen _ ih =>
    exact ⟨nofun, hend ((ih.2.afterValue (.keyword .exitwhen) ih.1 rfl).startsWith rfl)⟩
  | returns => exact ⟨nofun, joined_singleton rfl rfl⟩
  | returnsValue _ ih =>
    exact ⟨nofun, hend ((ih.2.afterValue (.keyword .returnWord) ih.1 rfl).startsWith rfl)⟩
  | set _ ih =>
    have hid := (ih.2.afterValue .assign ih.1 rfl).push .identifier nofun rfl
    exact ⟨nofun, hend ((hid.push (.keyword .set) nofun rfl).startsWith rfl)⟩
  | setElement _ _ ihindex ihvalue =>
    have hclose :=
      (ihvalue.2.afterValue .assign ihvalue.1 rfl).push (.delimiter .closeBracket) nofun rfl
    have hopen := ihindex.2.between (.delimiter .openBracket) ihindex.1 rfl hclose rfl
    have hid := hopen.push .identifier nofun rfl
    exact ⟨nofun, hend ((hid.push (.keyword .set) nofun rfl).startsWith rfl)⟩
  | callAction _ ih => exact ⟨nofun, hend ((ih.2.push (.keyword .call) ih.1 rfl).startsWith rfl)⟩
  | branch _ _ _ ihcondition ihbody ihalternative =>
    have hbelow := ihbody.below ihalternative.2 rfl ihalternative.1
    have hbranch := ihcondition.2.guarded ihcondition.1 hbelow (.keyword .ifWord) rfl
    exact ⟨nofun, (hbranch.startsWith rfl).imp (fun _ => id) fun _ hk => beq_iff_eq.mp hk ▸ rfl⟩
  | loop _ ih =>
    have hclose : Joined (· == .keyword .endloop) endsLine [.keyword .endloop] :=
      joined_singleton rfl rfl
    exact ⟨nofun, ((ih.below hclose rfl nofun).push (.keyword .loop) nofun rfl).startsWith rfl⟩
  | noStatements => exact joined_nil
  | block _ _ ihstatement ihrest =>
    have hnext : Joined (· == .newline) (· == .newline) (.newline :: _) := Joined.cons rfl ihrest
      (fun _ hr => newline_joins (ne_newline_of_class rfl hr)) fun _ => rfl
    exact ihstatement.2.append hnext
      (fun _ _ hl hr => beq_iff_eq.mp hr ▸ joins_newline (ne_newline_of_class rfl hl))
      (fun hnil => absurd hnil ihstatement.1) nofun
  | nothing => exact ⟨nofun, joined_singleton rfl rfl⟩
  | otherwise _ ih =>
    have hclose : Joined (· == .keyword .endif) (· == .keyword .endif) [.keyword .endif] :=
      joined_singleton rfl rfl
    exact ⟨nofun, ((ih.below hclose rfl nofun).push (.keyword .elseWord) nofun rfl).startsWith rfl⟩
  | elseif _ _ _ ihcondition ihbody ihalternative =>
    have hbelow := ihbody.below ihalternative.2 rfl ihalternative.1
    exact ⟨nofun,
      (ihcondition.2.guarded ihcondition.1 hbelow (.keyword .elseif) rfl).startsWith rfl⟩

end Mapsmith.Script
