import Mapsmith.Proofs.Script.Stretches
import Mapsmith.Script.Fragment

/-!
# Tokens with other blanks between them

`lexemes_respaced`: what the lexer reads depends on the tokens alone: a text in which they
stand in the same order, with blanks between each two, is read as them. No token goes on with a
blank, so each is read as in the text that it was first read from. A fragment is written in
this way and is read back.
-/

namespace Mapsmith.Script

/-- The texts of the tokens in order, with one or more blanks between each two. -/
inductive Respaced : List Token → List Char → Prop
  | nil : Respaced [] []
  | single {token} : Respaced [token] token.text.toList
  | more {token tokens blanks spaced} : blanks ≠ [] → (∀ c ∈ blanks, isBlank c = true) →
      tokens ≠ [] → Respaced tokens spaced →
      Respaced (token :: tokens) (token.text.toList ++ (blanks ++ spaced))

-- ---------------------------------------------------------------------------
-- Reading
-- ---------------------------------------------------------------------------

theorem goesOn_of_isBlank (h : isBlank c = true) (kind : TokenKind) : kind.goesOn c = false := by
  simp only [isBlank, Bool.or_eq_true, decide_eq_true_eq] at h
  unfold TokenKind.goesOn
  obtain ((rfl | rfl) | rfl) | rfl := h <;> split <;> simp [goesOnNumber, isWordCharacter]

theorem startsOff_goesOn_blanks {blanks : List Char} (hne : blanks ≠ [])
    (hblanks : ∀ c ∈ blanks, isBlank c = true) (kind : TokenKind) (rest : List Char) :
    StartsOff kind.goesOn (blanks ++ rest) := by
  obtain ⟨c, blanks, rfl⟩ := List.exists_cons_of_ne_nil hne
  rintro _ ⟨⟩
  exact goesOn_of_isBlank (hblanks c List.mem_cons_self) kind

/-- A token is read before any text that does not go on with it. Line breaks are read
before other tokens only. -/
theorem Lexes.token {token : Token} (ht : token.Lexed) (hrest : StartsOff token.kind.goesOn rest)
    (hapart : Apart (token :: tokens)) (h : Lexes rest tokens) :
    Lexes (token.text.toList ++ rest) (token :: tokens) := by
  by_cases hkind : token.kind = .newline
  · obtain ⟨kind, text⟩ := token
    obtain rfl : kind = .newline := hkind
    obtain rfl : text = "\n" := ht.canonical
    exact h.newline fun next hnext => (List.isChain_cons.mp hapart).1 next hnext rfl
  · exact h.cons ht hkind hrest

theorem Respaced.lexes (h : Respaced tokens spaced) (hlexed : ∀ token ∈ tokens, token.Lexed)
    (hapart : Apart tokens) : Lexes spaced tokens := by
  induction h with
  | nil => exact .done rfl
  | @single token =>
    have hempty : Lexes [] [] := .done rfl
    simpa using hempty.token (hlexed token List.mem_cons_self) startsOff_nil hapart
  | @more token tokens blanks spaced hne hblanks _ _ ih =>
    obtain ⟨htoken, hothers⟩ := List.forall_mem_cons.mp hlexed
    have hrest := ih hothers (List.isChain_cons.mp hapart).2
    exact (hrest.blanks hblanks).token htoken (startsOff_goesOn_blanks hne hblanks _ _) hapart

-- ---------------------------------------------------------------------------
-- Fragments
-- ---------------------------------------------------------------------------

theorem Fragment.respaced_text (fragment : Fragment) : Respaced fragment fragment.text.toList := by
  rw [Fragment.text, String.toList_intercalate]
  induction fragment with
  | nil => exact .nil
  | cons token rest ih =>
    cases rest with
    | nil => simpa using Respaced.single
    | cons next rest =>
      have hmore : Respaced (token :: next :: rest) (token.text.toList ++ ([' '] ++ _)) :=
        .more (by simp) (by simp [isBlank]) (by simp) ih
      simpa using hmore

theorem Fragment.ofText_ok (h : Fragment.ofText snippet = .ok fragment) :
    (∃ breaks, Lexes snippet.toList (fragment ++ breaks)) ∧
      ∀ token ∈ fragment.getLast?, token.kind ≠ .newline := by
  unfold Fragment.ofText at h
  cases hall : lexemes snippet with
  | error e => rw [hall] at h; cases h
  | ok all =>
    rw [hall] at h
    cases h
    have hlexes := lexes_iff.mpr ⟨all, hall, rfl⟩
    generalize all.map Lexeme.token = tokens at hlexes
    constructor
    · refine ⟨(tokens.reverse.takeWhile fun token => token.kind = .newline).reverse, ?_⟩
      rw [← List.reverse_append, List.takeWhile_append_dropWhile, List.reverse_reverse]
      exact hlexes
    · intro token htoken hkind
      have hhead := List.head?_dropWhile_not (fun token : Token => decide (token.kind = .newline))
        tokens.reverse
      rw [List.getLast?_reverse] at htoken
      rw [Option.mem_def.mp htoken] at hhead
      simp [hkind] at hhead

theorem Fragment.ofText_of_lexes {fragment : Fragment} (h : Lexes snippet.toList fragment)
    (hlast : ∀ token ∈ fragment.getLast?, token.kind ≠ .newline) :
    Fragment.ofText snippet = .ok fragment := by
  obtain ⟨all, hall, htokens⟩ := lexes_iff.mp h
  rw [Fragment.ofText, hall]
  simp only [htokens, bind, Except.bind, pure, Except.pure]
  obtain rfl | ⟨front, token, rfl⟩ := fragment.eq_nil_or_concat
  · rfl
  · have htoken : token.kind ≠ .newline := hlast token (by simp)
    simp [htoken]

/-- Tokens with other blanks between them are read as they were, and what a fragment is
written as is read as the fragment. -/
theorem lexemes_respaced :
    (∀ text all, lexemes text = .ok all → ∀ spaced, Respaced (all.map Lexeme.token) spaced →
      ∃ others, lexemes (String.ofList spaced) = .ok others ∧
        others.map Lexeme.token = all.map Lexeme.token) ∧
    ∀ snippet fragment, Fragment.ofText snippet = .ok fragment →
      Fragment.ofText fragment.text = .ok fragment := by
  constructor
  · intro text all hall spaced hspaced
    have hlexes := lexes_iff.mpr ⟨all, hall, rfl⟩
    apply lexes_iff.mp
    rw [String.toList_ofList]
    exact hspaced.lexes hlexes.lexed hlexes.apart
  · intro snippet fragment h
    obtain ⟨⟨breaks, hlexes⟩, hlast⟩ := Fragment.ofText_ok h
    refine Fragment.ofText_of_lexes (fragment.respaced_text.lexes ?_ ?_) hlast
    · exact fun token htoken => hlexes.lexed token (List.mem_append_left _ htoken)
    · exact hlexes.apart.left_of_append

/-- An octal number, a sign that could begin a comment, a number with nothing after its
point, line breaks after a comment and a string with a quote in it. -/
def crowded : String := "07/0.//\n<=\"\\\"\"\n"

def crowdedTokens : List Token :=
  [⟨.literal .octal, "07"⟩, .operator .divide, ⟨.literal .real, "0."⟩, .newline, .operator .atMost,
    ⟨.literal .string, "\"\\\"\""⟩]

theorem lexemes_respaced_crowded :
    (∃ others, lexemes "07\t/ 0. \n\r<=\x0c\"\\\"\" \n" = .ok others ∧
      others.map Lexeme.token = crowdedTokens ++ [.newline]) ∧
    Fragment.ofText crowded = .ok crowdedTokens ∧
      Fragment.ofText (Fragment.text crowdedTokens) = .ok crowdedTokens := by
  have hlexemes : lexemes crowded = .ok
      [⟨⟨.literal .octal, "07"⟩, ⟨1, 1, 0⟩⟩, ⟨.operator .divide, ⟨1, 3, 2⟩⟩,
        ⟨⟨.literal .real, "0."⟩, ⟨1, 4, 3⟩⟩, ⟨.newline, ⟨1, 8, 7⟩⟩, ⟨.operator .atMost, ⟨2, 1, 8⟩⟩,
        ⟨⟨.literal .string, "\"\\\"\""⟩, ⟨2, 3, 10⟩⟩, ⟨.newline, ⟨2, 7, 14⟩⟩] := by decide +kernel
  have hfragment : Fragment.ofText crowded = .ok crowdedTokens := by decide +kernel
  have hblank (c : Char) (hc : isBlank c = true) : ∀ d ∈ [c], isBlank d = true := by simpa using hc
  have hspaced : Respaced (crowdedTokens ++ [.newline]) "07\t/ 0. \n\r<=\x0c\"\\\"\" \n".toList :=
    .more (by simp) (hblank '\t' rfl) nofun <| .more (by simp) (hblank ' ' rfl) nofun <|
      .more (by simp) (hblank ' ' rfl) nofun <| .more (by simp) (hblank '\r' rfl) nofun <|
      .more (by simp) (hblank '\x0c' rfl) nofun <| .more (by simp) (hblank ' ' rfl) nofun .single
  obtain ⟨others, hothers, htokens⟩ := lexemes_respaced.1 crowded _ hlexemes _ hspaced
  rw [String.ofList_toList] at hothers
  exact ⟨⟨others, hothers, htokens⟩, hfragment, lexemes_respaced.2 _ _ hfragment⟩

end Mapsmith.Script
