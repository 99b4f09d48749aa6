import Mapsmith.Script.Basic
import Mapsmith.Proofs.Script.Printing

/-!
# What symbols are written as

`Declaration.shows_type`, `Declaration.shows_native`: the parts that a symbol is written as are
read as the tokens of the declaration that it comes from. Fragments may be written as they are
derived; before and between them stand words and signs that keep apart.
-/

namespace Mapsmith.Script

-- ---------------------------------------------------------------------------
-- Parts, token by token
-- ---------------------------------------------------------------------------

structure Shows (part : List Piece) (tokens : List Token) : Prop where
  neat : Neat part
  read : part.map Piece.read = tokens

theorem adjoins_of_hasSpaceAfter {left right : Piece} (h : left.hasSpaceAfter = true)
    (hleft : left.token.kind ≠ .newline) (hright : right.token.kind ≠ .newline) :
    adjoins left right = true := by
  rw [adjoins, if_neg (not_or.mpr ⟨hleft, hright⟩), spaced, h]
  rfl

theorem shows_singleton {piece : Piece} (hne : piece.token.kind ≠ .newline)
    (hread : piece.read = token) :
    Shows [piece] [token] :=
  ⟨⟨nofun, .singleton piece, by simpa using hne, by simpa using hne⟩, congrArg ([·]) hread⟩

variable {left right : Piece} {part rest : List Piece} {token : Token} {tokens : List Token}

theorem Shows.cons (h : Shows part tokens) (hne : left.token.kind ≠ .newline)
    (hread : left.read = token)
    (hadjoins : ∀ right ∈ part.head?, adjoins left right = true) :
    Shows (left :: part) (token :: tokens) := by
  obtain ⟨⟨hnil, hchained, -, hlast⟩, rfl⟩ := h
  obtain ⟨right, part, rfl⟩ := List.exists_cons_of_ne_nil hnil
  refine ⟨⟨nofun, List.isChain_cons_cons.mpr ⟨hadjoins right rfl, hchained⟩, ?_, ?_⟩, ?_⟩
  · rintro _ ⟨⟩
    exact hne
  · rwa [List.getLast?_cons_cons]
  · rw [List.map_cons, hread]

theorem keyword_ne_newline (word : Keyword) : (Token.keyword word).kind ≠ .newline := nofun

theorem identifier_ne_newline (name : String) : (Token.identifier name).kind ≠ .newline := nofun

theorem Shows.push (h : Shows (right :: rest) tokens) (ht : token.Lexed)
    (hne : token.kind ≠ .newline) (hadjoins : adjoins (.ofToken token) right = true) :
    Shows (.ofToken token :: right :: rest) (token :: tokens) := by
  refine h.cons hne (Piece.read_ofToken ht) ?_
  rintro _ ⟨⟩
  exact hadjoins

theorem Shows.word (h : Shows part tokens) (ht : token.Lexed) (hne : token.kind ≠ .newline)
    (hspace : (Piece.ofToken token).hasSpaceAfter = true) :
    Shows (.ofToken token :: part) (token :: tokens) :=
  h.cons hne (Piece.read_ofToken ht) fun _ hright =>
    adjoins_of_hasSpaceAfter hspace hne (h.neat.head _ hright)

theorem shows_ofToken (ht : token.Lexed) (hne : token.kind ≠ .newline) :
    Shows [.ofToken token] [token] := shows_singleton hne (Piece.read_ofToken ht)

theorem typeName_eq_ofWord {name : String} (h : (Token.typeName name).Lexed) :
    ⟨.ofWord name, name⟩ = Token.typeName name := by
  have hc := h.canonical
  unfold Token.typeName at hc ⊢
  cases hword : TokenKind.ofWord? name with
  | none =>
    rw [TokenKind.ofWord, hword]
    rfl
  | some kind =>
    rw [hword] at hc
    rw [TokenKind.ofWord, hword]
    cases kind with
    | builtin type => rfl
    | _ => exact absurd (hword.symm.trans hc) nofun

theorem Shows.type {name : String} (h : Shows part tokens) (ht : (Token.typeName name).Lexed) :
    Shows (.type name :: part) (.typeName name :: tokens) :=
  h.cons (ofWord_ne_newline name)
  ((Piece.read_of_isWord (ofWord_isWord name)).trans (typeName_eq_ofWord ht))
    fun _ hright => adjoins_of_hasSpaceAfter rfl (ofWord_ne_newline name) (h.neat.head _ hright)

theorem shows_parent {name : String} (ht : (Token.typeName name).Lexed) :
    Shows [.identifier name] [.typeName name] := shows_singleton nofun (typeName_eq_ofWord ht)

theorem Joined.shows {fragment : Fragment} (h : Joined start stop (fragment.map Token.kind))
    (hne : fragment.map Token.kind ≠ []) (hstart : start .newline = false)
    (hstop : stop .newline = false)
    (hlexed : ∀ token ∈ fragment, token.Lexed) : Shows fragment.pieces fragment := by
  refine ⟨⟨?_, ?_, fun piece hp => ?_, fun piece hp => ?_⟩, ?_⟩
  · simpa [Fragment.pieces] using hne
  · exact (List.isChain_map _).mpr ((List.isChain_map _).mp h.chain)
  · obtain ⟨token, ht, rfl⟩ : ∃ token, fragment.head? = some token ∧ .ofToken token = piece := by
      simpa [Fragment.pieces] using hp
    exact ne_newline_of_class hstart (h.head token.kind (by simp [ht]))
  · obtain ⟨token, ht, rfl⟩ : ∃ token, fragment.getLast? = some token ∧ .ofToken token = piece := by
      simpa [Fragment.pieces] using hp
    exact ne_newline_of_class hstop (h.last token.kind (by simp [ht]))
  · rw [Fragment.pieces, List.map_map]
    exact (List.map_congr_left fun token ht => Piece.read_ofToken (hlexed token ht)).trans
      (List.map_id _)

-- ---------------------------------------------------------------------------
-- Signatures
-- ---------------------------------------------------------------------------

theorem takenPieces_cons (id : String) (first : Parameter) (more : List Parameter)
    (returns : Option String) : (Signature.mk id (first :: more) returns).takenPieces =
      first.pieces ++ more.flatMap fun p => .ofToken (.delimiter .comma) :: p.pieces := by
  show [.ofToken (.delimiter .comma)].intercalate ((first :: more).map Parameter.pieces) = _
  induction more generalizing first with
  | nil => simp
  | cons second more ih => simpa using ih second

theorem Parameter.shows (p : Parameter) (h : Shows (right :: rest) tokens)
    (ht : ∀ token ∈ p.tokens, token.Lexed)
    (hadjoins : ∀ id, adjoins (.identifier id) right = true) :
    Shows (p.pieces ++ right :: rest) (p.tokens ++ tokens) := by
  obtain ⟨htype, hid, -⟩ := List.forall_mem_cons.mp ht |>.imp_right List.forall_mem_cons.mp
  exact (h.push hid (identifier_ne_newline _) (hadjoins p.id)).type htype

theorem shows_parameters (first : Parameter) (more : List Parameter)
    (h : Shows (right :: rest) tokens) (ht : ∀ token ∈ takenTokens (first :: more), token.Lexed)
    (hadjoins : ∀ id, adjoins (.identifier id) right = true) :
    Shows (first.pieces ++ more.flatMap (fun p => .ofToken (.delimiter .comma) :: p.pieces) ++
      right :: rest) (takenTokens (first :: more) ++ tokens) := by
  induction more generalizing first with
  | nil =>
    rw [takenTokens] at ht ⊢
    simpa using first.shows h (by simpa using ht) hadjoins
  | cons second more ih =>
    obtain ⟨hfirst, hmore⟩ := List.forall_mem_append.mp ht
    obtain ⟨hcomma, hmore⟩ := List.forall_mem_cons.mp hmore
    have hnext := first.shows ((ih second hmore).word hcomma nofun rfl) hfirst fun _ => rfl
    simpa [takenTokens] using hnext

theorem Signature.shows (s : Signature) (ht : ∀ token ∈ s.tokens, token.Lexed) :
    Shows s.pieces s.tokens := by
  obtain ⟨id, takes, returns⟩ := s
  simp only [tokens, List.forall_mem_cons, List.forall_mem_append] at ht
  obtain ⟨hid, htakes, htaken, hreturns, hreturned, -⟩ := ht
  have hlast :
      Shows [(returns.map Piece.identifier).getD (.keyword .nothing)] [returnedToken returns] := by
    cases returns with
    | none => exact shows_ofToken hreturned (keyword_ne_newline _)
    | some name => exact shows_parent hreturned
  have hreturn := hlast.word hreturns (keyword_ne_newline _) rfl
  have hparameters : Shows (takenPieces ⟨id, takes, returns⟩ ++
      [.keyword .returns, (returns.map Piece.identifier).getD (.keyword .nothing)])
      (takenTokens takes ++ [.keyword .returns, returnedToken returns]) := by
    cases takes with
    | nil => exact hreturn.push (htaken _ List.mem_cons_self) (keyword_ne_newline _) rfl
    | cons first more =>
      rw [takenPieces_cons]
      exact shows_parameters first more hreturn htaken fun _ => rfl
  have hall :=
    (hparameters.word htakes (keyword_ne_newline _) rfl).push hid (identifier_ne_newline _) rfl
  simpa [pieces, tokens, Piece.identifier, Piece.keyword] using hall

theorem Shows.constant {constant : Option Position} (h : Shows part tokens)
    (ht : ∀ token ∈ constantTokens constant, token.Lexed) :
    Shows (constantPieces constant.isSome ++ part) (constantTokens constant ++ tokens) := by
  cases constant with
  | none => exact h
  | some _ => exact h.word (ht _ List.mem_cons_self) (keyword_ne_newline _) rfl

-- ---------------------------------------------------------------------------
-- Declarations
-- ---------------------------------------------------------------------------

theorem Expression.shows {value : Expression} (h : value.Fits n)
    (ht : ∀ token ∈ value.tokens, token.Lexed) :
    Shows (Fragment.pieces value.tokens) value.tokens :=
  (value.derives n h).joins.2.shows (value.derives n h).joins.1 rfl rfl ht

theorem Statement.shows {statement : Statement} (h : statement.Fits n inLoop)
    (ht : ∀ token ∈ statement.tokens, token.Lexed) :
    Shows (Fragment.pieces statement.tokens) statement.tokens :=
  (statement.derives n inLoop h).joins.2.shows (statement.derives n inLoop h).joins.1 rfl rfl ht

theorem VariableDeclaration.shows {declared : VariableDeclaration} (h : declared.Fits n)
    (ht : ∀ token ∈ declared.tokens, token.Lexed) :
    Shows declared.symbol.pieces declared.tokens := by
  obtain ⟨position, type, id, initial⟩ := declared
  obtain ⟨htype, ht⟩ := List.forall_mem_cons.mp ht
  cases initial with
  | array =>
    obtain ⟨harray, hid, -⟩ := List.forall_mem_cons.mp ht |>.imp_right List.forall_mem_cons.mp
    exact ((shows_ofToken hid (identifier_ne_newline _)).word harray
      (keyword_ne_newline _) rfl).type htype
  | unset =>
    obtain ⟨hid, -⟩ := List.forall_mem_cons.mp ht
    exact (shows_ofToken hid (identifier_ne_newline _)).type htype
  | value value =>
    obtain ⟨hid, hassign, hvalue⟩ := List.forall_mem_cons.mp ht |>.imp_right List.forall_mem_cons.mp
    have hassigned := (Expression.shows (h value rfl) hvalue).word hassign nofun rfl
    exact (hassigned.push hid (identifier_ne_newline _) rfl).type htype

theorem GlobalDeclaration.shows {member : GlobalDeclaration} (h : member.Fits n)
    (ht : ∀ token ∈ member.tokens, token.Lexed) : Shows member.symbol.pieces member.tokens := by
  cases member with
  | constant position type id value =>
    obtain ⟨hconstant, ht⟩ := List.forall_mem_cons.mp ht
    have hfits : VariableDeclaration.Fits n ⟨position, type, id, .value value⟩ := by
      rintro _ ⟨⟩
      exact h
    exact (VariableDeclaration.shows hfits ht).word hconstant (keyword_ne_newline _) rfl
  | plain declared => exact VariableDeclaration.shows h ht

theorem Declaration.shows_type {d : Declaration} (h : d.type? = some symbol)
    (ht : ∀ token ∈ d.tokens, token.Lexed) : Shows symbol.pieces d.tokens := by
  cases d with
  | type position id parent =>
    cases h
    simp only [tokens, List.forall_mem_cons] at ht
    obtain ⟨htype, hid, hextends, hparent, -⟩ := ht
    have hextended := (shows_parent hparent).push hextends (keyword_ne_newline _) rfl
    exact (hextended.push hid (identifier_ne_newline _) rfl).push htype (keyword_ne_newline _) rfl
  | native | globals => cases h

theorem Declaration.shows_native {d : Declaration} (h : d.native? = some symbol)
    (ht : ∀ token ∈ d.tokens, token.Lexed) : Shows (symbol.pieces .native) d.tokens := by
  cases d with
  | native constant position s =>
    cases h
    simp only [tokens, List.forall_mem_cons, List.forall_mem_append] at ht
    obtain ⟨hconstant, hnative, hs⟩ := ht
    exact ((s.shows hs).word hnative (keyword_ne_newline _) rfl).constant hconstant
  | type | globals => cases h

end Mapsmith.Script
