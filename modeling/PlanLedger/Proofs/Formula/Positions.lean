import PlanLedger.Formula.Reading
import PlanLedger.Proofs.Formula.Literals

/-!
# Where tokens stand

Whatever a text is, cutting it goes forward: a blank is passed over, and a token takes up the
characters from its beginning on, at least one of them. So blanks and tokens tile the text, there
are no more tokens than characters, and the byte that is kept with a token is one at which a
character of the text begins.
-/

namespace PlanLedger.Formula

open Text (isBlank)

/-! ## Bytes of a text -/

section

variable {s rest : List Char} {c : Char}

private theorem foldl_utf8Size (n : Nat) (s : List Char) :
    s.foldl (fun n c ↦ n + c.utf8Size) n = n + byteLength s := by
  induction s generalizing n with
  | nil => rfl
  | cons c s ih =>
    rw [byteLength, List.foldl_cons, List.foldl_cons, ih, ih, Nat.zero_add, Nat.add_assoc]

theorem byteLength_cons (c : Char) (s : List Char) :
    byteLength (c :: s) = c.utf8Size + byteLength s := by
  rw [byteLength, List.foldl_cons, foldl_utf8Size, Nat.zero_add]

theorem byteLength_append (s rest : List Char) :
    byteLength (s ++ rest) = byteLength s + byteLength rest := by
  induction s with
  | nil => exact (Nat.zero_add _).symm
  | cons c s ih => rw [List.cons_append, byteLength_cons, byteLength_cons, ih, Nat.add_assoc]

theorem byteLength_eq_utf8ByteSize (s : List Char) :
    byteLength s = (String.ofList s).utf8ByteSize := by
  induction s with
  | nil => rfl
  | cons c s ih =>
    have hsplit : String.ofList (c :: s) = String.singleton c ++ String.ofList s := by
      rw [String.singleton_eq_ofList, ← String.ofList_append]
      rfl
    rw [byteLength_cons, ih, hsplit, String.utf8ByteSize_append, String.utf8ByteSize_singleton]

/-- A byte of a text at which a character begins, or the text ends. -/
def IsBoundary (s : List Char) (offset : Nat) : Prop :=
  String.Pos.Raw.IsValid (String.ofList s) ⟨offset⟩

theorem isBoundary_append (s rest : List Char) : IsBoundary (s ++ rest) (byteLength s) := by
  refine String.Pos.Raw.isValid_iff_exists_append.mpr
    ⟨String.ofList s, String.ofList rest, String.ofList_append, ?_⟩
  rw [byteLength_eq_utf8ByteSize]
  rfl

theorem isBoundary_byteLength (s : List Char) : IsBoundary s (byteLength s) := by
  have h := isBoundary_append s []
  rwa [List.append_nil] at h

theorem IsBoundary.le {offset : Nat} (h : IsBoundary s offset) : offset ≤ byteLength s := by
  rw [byteLength_eq_utf8ByteSize]
  exact String.Pos.Raw.IsValid.le_utf8ByteSize h

/-! ## What is left of a text -/

theorem Cut.Splits.suffix {cut : Cut (List Char)} (h : cut.Splits s) : cut.rest <:+ s :=
  ⟨cut.value, h.symm⟩

theorem suffix_cutQuoted (quote : Char) (s : List Char) : (cutQuoted quote s).rest <:+ s := by
  induction s using cutQuoted.induct quote with
  | case1 => exact List.suffix_refl _
  | case2 s ih =>
    rw [cutQuoted_twice]
    exact (ih.trans (List.suffix_cons _ _)).trans (List.suffix_cons _ _)
  | case3 d s hne =>
    rw [cutQuoted_close fun c hc ↦ by rwa [← Option.some_inj.mp hc]]
    exact List.suffix_cons _ _
  | case4 =>
    rw [cutQuoted, if_pos rfl]
    exact List.nil_suffix
  | case5 d s hne ih =>
    rw [cutQuoted_cons_of_ne hne]
    exact ih.trans (List.suffix_cons _ _)

theorem suffix_cutSymbol (s : List Char) (next : Char) (short long : Token) :
    (cutSymbol s next short long).rest <:+ s := by
  unfold cutSymbol
  split
  · split_ifs
    · exact List.suffix_cons _ _
    · exact List.suffix_refl _
  · exact List.suffix_refl _

theorem suffix_cutNumber (s : List Char) : (cutNumber s).rest <:+ s := by
  obtain ⟨text, -, hs⟩ := exists_cutNumber_eq s
  exact ⟨text.toList, hs.symm⟩

theorem suffix_cutDollar (s : List Char) : (cutDollar s).rest <:+ s := by
  unfold cutDollar
  dsimp only
  split_ifs <;> exact (splits_cutWhile isWordChar s).suffix

/-- What is left after a token is the end of the text, without the first character at least. -/
theorem suffix_cutToken (c : Char) (s : List Char) : (cutToken c s).rest <:+ s := by
  have hsuffix : (cutToken c s).rest <:+ c :: s := by
    have hrest : s <:+ c :: s := List.suffix_cons c s
    rw [cutToken.eq_def]
    split
    · exact hrest
    · split_ifs
      · exact (suffix_cutSymbol _ _ _ _).trans hrest
      · exact (suffix_cutSymbol _ _ _ _).trans hrest
      · split
        · exact (List.suffix_cons _ _).trans hrest
        · exact (List.suffix_cons _ _).trans hrest
        · exact hrest
      · exact (suffix_cutSymbol _ _ _ _).trans hrest
      · dsimp only
        split <;> exact (suffix_cutQuoted c s).trans hrest
      · exact suffix_cutNumber _
      · exact hrest
      · exact (suffix_cutDollar s).trans hrest
      · exact suffix_cutNumber _
      · exact (splits_cutWhile isWordChar s).suffix.trans hrest
      · exact hrest
  rcases List.suffix_cons_iff.mp hsuffix with heq | hshorter
  · have hle := length_cutToken_rest c s
    rw [heq, List.length_cons] at hle
    omega
  · exact hshorter

end

/-! ## Tiles -/

/-- A text that begins at a byte is blanks and tokens, one after the other. A token begins at its
byte with a character that is no blank, and it is what is cut off there. -/
inductive Tiles : Nat → List Char → List Lexeme → Prop
  | nil (offset : Nat) : Tiles offset [] []
  | blank (offset : Nat) (c : Char) (rest : List Char) (ts : List Lexeme)
      (passed : isBlank c = true) (tiled : Tiles (offset + c.utf8Size) rest ts) :
      Tiles offset (c :: rest) ts
  | token (offset : Nat) (c : Char) (more rest : List Char) (t : Token) (ts : List Lexeme)
      (begins : isBlank c = false) (cut : cutToken c (more ++ rest) = ⟨t, rest⟩)
      (tiled : Tiles (offset + byteLength (c :: more)) rest ts) :
      Tiles offset (c :: more ++ rest) (⟨t, offset⟩ :: ts)

/-- **Cutting goes forward.** The tokens of a text tile it. -/
theorem tiles_tokensFrom (offset : Nat) (s : List Char) : Tiles offset s (tokensFrom offset s) := by
  fun_induction tokensFrom offset s with
  | case1 offset => exact .nil offset
  | case2 offset c rest hblank ih => exact .blank offset c rest _ hblank ih
  | case3 offset c rest hblank cut ih =>
    obtain ⟨more, hmore⟩ : cut.rest <:+ rest := suffix_cutToken c rest
    have hcut : cutToken c (more ++ cut.rest) = ⟨cut.value, cut.rest⟩ := congrArg _ hmore
    have hbytes : offset + byteLength (c :: rest) - byteLength cut.rest =
        offset + byteLength (c :: more) := by
      rw [← hmore, ← List.cons_append, byteLength_append]
      omega
    rw [hbytes] at ih ⊢
    have htiles := Tiles.token offset c more cut.rest cut.value _ (by simpa using hblank) hcut ih
    rwa [List.cons_append, hmore] at htiles

namespace Tiles

variable {offset : Nat} {s : List Char} {ts : List Lexeme}

theorem length_le (h : Tiles offset s ts) : ts.length ≤ s.length := by
  induction h with
  | nil => exact Nat.le_refl _
  | blank _ _ _ _ _ _ ih => exact Nat.le_succ_of_le ih
  | token =>
    simp only [List.length_cons, List.length_append]
    omega

theorem exists_before (h : Tiles offset s ts) {t : Lexeme} (ht : t ∈ ts) :
    ∃ before after, s = before ++ after ∧ t.offset = offset + byteLength before := by
  induction h with
  | nil => cases ht
  | blank offset c rest ts _ _ ih =>
    obtain ⟨before, after, rfl, hoffset⟩ := ih ht
    exact ⟨c :: before, after, rfl, by rw [hoffset, byteLength_cons, Nat.add_assoc]⟩
  | token offset c more rest t ts _ _ _ ih =>
    rcases List.mem_cons.mp ht with rfl | ht
    · exact ⟨[], _, rfl, rfl⟩
    · obtain ⟨before, after, rfl, hoffset⟩ := ih ht
      refine ⟨c :: more ++ before, after, by rw [List.append_assoc], ?_⟩
      rw [hoffset, byteLength_append, Nat.add_assoc]

end Tiles

theorem isBoundary_of_mem_tokens {s : List Char} {t : Lexeme} (h : t ∈ tokens s) :
    IsBoundary s t.offset := by
  obtain ⟨before, after, rfl, hoffset⟩ := (tiles_tokensFrom 0 s).exists_before h
  rw [hoffset, Nat.zero_add]
  exact isBoundary_append before after

end PlanLedger.Formula
