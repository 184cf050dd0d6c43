import Miningcore.Foundation.JsonDocument
import Miningcore.Stratum.FastRequestParser

/-!
# An object is cut out whole

Outside of strings only quotes and braces change what the scan is in, and the braces
of a value are balanced. Inside a string nothing but its end does, as what follows
a backslash is passed over. So the first object of a line is found whole, whatever
stands in it.
-/

namespace Miningcore.StratumConnection

open Foundation JsonGrammar

/-- The bytes of a text in UTF-8. -/
def bytesOf (text : List Char) : List UInt8 := text.flatMap String.utf8EncodeChar

section encoding

theorem bytesOf_append (text text' : List Char) :
    bytesOf (text ++ text') = bytesOf text ++ bytesOf text' :=
  List.flatMap_append

/-- A byte below 128 stands for its own character only. -/
theorem toNat_of_mem_utf8EncodeChar {c : Char} {b : UInt8} (hb : b.toNat < 128)
    (h : b ∈ String.utf8EncodeChar c) : c.toNat = b.toNat := by
  have hsmall (n : ℕ) (hn : n < 256) : (UInt8.ofNat n).toNat = n := UInt8.toNat_ofNat_of_lt' hn
  rw [String.utf8EncodeChar] at h
  split_ifs at h with hone
  · rw [List.mem_singleton] at h
    rw [h, hsmall _ (by omega)]
    rfl
  -- every byte of a longer code has its highest bit set
  all_goals simp only [List.mem_cons, List.not_mem_nil, or_false] at h
  · obtain rfl | rfl := h <;> rw [hsmall _ (by omega)] at hb <;> omega
  · obtain rfl | rfl | rfl := h <;> rw [hsmall _ (by omega)] at hb <;> omega
  · obtain rfl | rfl | rfl | rfl := h <;> rw [hsmall _ (by omega)] at hb <;> omega

theorem not_mem_bytesOf {text : List Char} {b : UInt8} (hb : b.toNat < 128)
    (h : ∀ c ∈ text, c.toNat ≠ b.toNat) : b ∉ bytesOf text := by
  intro hmem
  obtain ⟨c, hc, hbyte⟩ := List.mem_flatMap.mp hmem
  exact h c hc (toNat_of_mem_utf8EncodeChar hb hbyte)

end encoding

section scanning

/-- The scan passes over bytes and is in the same state after them. -/
def SkipsOver (depth : Nat) (inString : Bool) (bytes : List UInt8) : Prop :=
  ∀ rest, upToMatching depth inString false (bytes ++ rest) =
    (upToMatching depth inString false rest).map (bytes ++ ·)

variable {depth : Nat} {inString : Bool} {bytes bytes' : List UInt8}

theorem SkipsOver.append (h : SkipsOver depth inString bytes)
    (h' : SkipsOver depth inString bytes') : SkipsOver depth inString (bytes ++ bytes') := by
  intro rest
  rw [List.append_assoc, h, h', Option.map_map]
  congr 1
  ext scanned : 1
  exact (List.append_assoc _ _ _).symm

theorem skipsOver_nil : SkipsOver depth inString [] := by
  intro rest
  exact Option.map_id.symm ▸ rfl

/-- Outside of strings only quotes and braces are looked at. -/
theorem skipsOver_of_quiet (hquote : quote ∉ bytes) (hopen : openBrace ∉ bytes)
    (hclose : closeBrace ∉ bytes) : SkipsOver depth false bytes := by
  induction bytes with
  | nil => exact skipsOver_nil
  | cons b bytes ih =>
      rw [List.mem_cons, not_or] at hquote hopen hclose
      intro rest
      rw [List.cons_append, upToMatching, if_neg Bool.false_ne_true, if_neg (Ne.symm hquote.1),
        if_neg (Ne.symm hopen.1), if_neg (Ne.symm hclose.1),
        ih hquote.2 hopen.2 hclose.2, Option.map_map]
      rfl

/-- Inside a string only quotes and backslashes are. -/
theorem skipsOver_of_unescaped (hquote : quote ∉ bytes) (hbackslash : backslash ∉ bytes) :
    SkipsOver depth true bytes := by
  induction bytes with
  | nil => exact skipsOver_nil
  | cons b bytes ih =>
      rw [List.mem_cons, not_or] at hquote hbackslash
      intro rest
      rw [List.cons_append, upToMatching, if_pos rfl, if_neg Bool.false_ne_true,
        if_neg (Ne.symm hbackslash.1), if_neg (Ne.symm hquote.1), ih hquote.2 hbackslash.2,
        Option.map_map]
      rfl

/-- What follows a backslash is passed over. -/
theorem skipsOver_escape (b : UInt8) : SkipsOver depth true [backslash, b] := by
  intro rest
  change upToMatching depth true false (backslash :: b :: rest) = _
  rw [upToMatching, if_pos rfl, if_neg Bool.false_ne_true, if_pos rfl, upToMatching, if_pos rfl,
    if_pos rfl, Option.map_map]
  rfl

/-- A string ends outside of strings again. -/
theorem skipsOver_quoted (h : SkipsOver depth true bytes) :
    SkipsOver depth false (quote :: bytes ++ [quote]) := by
  intro rest
  have hbegin : upToMatching depth false false (quote :: (bytes ++ quote :: rest)) =
      (upToMatching depth true false (bytes ++ quote :: rest)).map (quote :: ·) := by
    rw [upToMatching, if_neg Bool.false_ne_true, if_pos rfl]
  have hend : upToMatching depth true false (quote :: rest) =
      (upToMatching depth false false rest).map (quote :: ·) := by
    rw [upToMatching, if_pos rfl, if_neg Bool.false_ne_true, if_neg (by decide), if_pos rfl]
  rw [List.append_assoc, List.cons_append, List.cons_append, List.nil_append, hbegin, h, hend,
    Option.map_map, Option.map_map]
  congr 1
  ext scanned : 1
  simp

end scanning

section texts

variable {depth : Nat} {text text' : List Char}

theorem ne_of_mem_bytesOf {c : Char} {b : UInt8} (hb : b.toNat < 128) (h : c ∈ text → False)
    (hcode : c.toNat = b.toNat) : b ∉ bytesOf text := by
  apply not_mem_bytesOf hb
  intro other hother heq
  have hsame : other = c := by
    rw [← Char.ofNat_toNat other, heq, ← hcode, Char.ofNat_toNat]
  exact h (hsame ▸ hother)

/-- No quotes and no braces. -/
def IsQuiet (text : List Char) : Prop := ∀ c ∈ text, c ∉ ['"', '{', '}']

theorem IsQuiet.append (h : IsQuiet text) (h' : IsQuiet text') : IsQuiet (text ++ text') := by
  intro c hc
  exact (List.mem_append.mp hc).elim (h c) (h' c)

theorem IsQuiet.skipsOver (h : IsQuiet text) : SkipsOver depth false (bytesOf text) := by
  apply skipsOver_of_quiet
  · exact ne_of_mem_bytesOf (by decide) (fun hmem => h '"' hmem (by decide)) rfl
  · exact ne_of_mem_bytesOf (by decide) (fun hmem => h '{' hmem (by decide)) rfl
  · exact ne_of_mem_bytesOf (by decide) (fun hmem => h '}' hmem (by decide)) rfl

theorem IsQuiet.of_all {p : Char → Bool} (h : ∀ c ∈ text, p c = true)
    (hp : ∀ c ∈ ['"', '{', '}'], p c = false) : IsQuiet text := by
  intro c hc hmem
  exact Bool.false_ne_true ((hp c hmem).symm.trans (h c hc))

theorem isQuiet_blank (h : IsBlank text) : IsQuiet text := by
  have hblank : ∀ c ∈ [' ', '\t', '\n', '\r'], c ∉ ['"', '{', '}'] := by simp
  exact fun c hc => hblank c (h c hc)

theorem isQuiet_nil : IsQuiet [] := fun _ hc => absurd hc List.not_mem_nil

theorem isQuiet_cons {c : Char} : IsQuiet (c :: text) ↔ c ∉ ['"', '{', '}'] ∧ IsQuiet text :=
  List.forall_mem_cons

theorem isQuiet_digits (h : IsDigits text) : IsQuiet text :=
  .of_all h.2 (by simp)

theorem isQuiet_number (h : IsNumber text) : IsQuiet text := by
  obtain ⟨hsign, hinteger, hfraction, hexponent⟩ := h
  have hsigns : ∀ sign ∈ [[], ['-'], ['+']], IsQuiet sign := by simp [IsQuiet]
  have hmarks : ∀ mark ∈ ['e', 'E'], mark ∉ ['"', '{', '}'] := by simp
  refine .append (.append (.append (hsigns _ ?_) (isQuiet_digits hinteger.1)) ?_) ?_
  · exact List.mem_append_left [['+']] hsign
  · obtain rfl | ⟨digits, hdigits, rfl⟩ := hfraction
    · exact isQuiet_nil
    · exact isQuiet_cons.mpr ⟨by simp, isQuiet_digits hdigits⟩
  · obtain rfl | ⟨mark, hmark, sign, hsign', digits, hdigits, rfl⟩ := hexponent
    · exact isQuiet_nil
    · exact (isQuiet_cons.mpr ⟨hmarks mark hmark, hsigns sign hsign'⟩).append
        (isQuiet_digits hdigits)

theorem isQuiet_word (h : text ∈ ["true".toList, "false".toList, "null".toList]) :
    IsQuiet text := by
  have hwords : ∀ word ∈ ["true".toList, "false".toList, "null".toList], IsQuiet word := by
    simp [IsQuiet]
  exact hwords text h

theorem skipsOver_unescaped (hquote : '"' ∉ text) (hbackslash : '\\' ∉ text) :
    SkipsOver depth true (bytesOf text) :=
  skipsOver_of_unescaped (ne_of_mem_bytesOf (by decide) hquote rfl)
    (ne_of_mem_bytesOf (by decide) hbackslash rfl)

theorem skipsOver_backslash {c : Char} (h : c.toNat < 128) :
    SkipsOver depth true (bytesOf ['\\', c]) := by
  have hcode : String.utf8EncodeChar c = [UInt8.ofNat c.toNat] :=
    if_pos (Nat.le_of_lt_succ h)
  have hbytes : bytesOf ['\\', c] = [backslash, UInt8.ofNat c.toNat] := by
    rw [bytesOf, List.flatMap_cons, List.flatMap_cons, hcode]
    rfl
  rw [hbytes]
  exact skipsOver_escape _

theorem skipsOver_content (h : IsContent text) : SkipsOver depth true (bytesOf text) := by
  induction h with
  | nil => exact skipsOver_nil
  | @unescaped c text hcontrol hquote hbackslash h ih =>
      have hchar : SkipsOver depth true (bytesOf [c]) := by
        apply skipsOver_unescaped
        · exact fun hmem => hquote (List.mem_singleton.mp hmem).symm
        · exact fun hmem => hbackslash (List.mem_singleton.mp hmem).symm
      exact bytesOf_append [c] text ▸ hchar.append ih
  | @escaped escape text hescape h ih =>
      rw [bytesOf_append]
      apply SkipsOver.append _ ih
      cases hescape with
      | @short c h =>
          have hascii : ∀ c ∈ ['"', '\\', '/', 'b', 'f', 'n', 'r', 't'], c.toNat < 128 := by
            simp
          exact skipsOver_backslash (hascii c h)
      | @unicode digits hlength h =>
          have hdigits : SkipsOver depth true (bytesOf digits) := by
            apply skipsOver_unescaped
            · exact fun hmem => absurd (h _ hmem) (by decide)
            · exact fun hmem => absurd (h _ hmem) (by decide)
          exact bytesOf_append ['\\', 'u'] digits ▸ (skipsOver_backslash (by decide)).append hdigits

theorem skipsOver_string (h : IsString text) : SkipsOver depth false (bytesOf text) := by
  obtain ⟨h⟩ := h
  rw [bytesOf_append]
  exact skipsOver_quoted (skipsOver_content h)

end texts

section values

/-- What is passed over inside of an object. -/
def Neutral (text : List Char) : Prop := ∀ depth, 0 < depth → SkipsOver depth false (bytesOf text)

variable {text text' : List Char}

theorem Neutral.append (h : Neutral text) (h' : Neutral text') : Neutral (text ++ text') := by
  intro depth hdepth
  rw [bytesOf_append]
  exact (h depth hdepth).append (h' depth hdepth)

theorem IsQuiet.neutral (h : IsQuiet text) : Neutral text := fun _ _ => h.skipsOver

theorem neutral_string (h : IsString text) : Neutral text := fun _ _ => skipsOver_string h

/-- From inside of an object its end is found. -/
theorem upToMatching_braces (h : Neutral text) (depth : Nat) (rest : List UInt8) :
    upToMatching depth false false (bytesOf ('{' :: text ++ ['}']) ++ rest) =
      if depth = 0 then some (bytesOf ('{' :: text ++ ['}']))
      else (upToMatching depth false false rest).map (bytesOf ('{' :: text ++ ['}']) ++ ·) := by
  have hbytes : bytesOf ('{' :: text ++ ['}']) = openBrace :: bytesOf text ++ [closeBrace] :=
    bytesOf_append ('{' :: text) ['}']
  have hend : upToMatching (depth + 1) false false (closeBrace :: rest) =
      if depth = 0 then some [closeBrace]
      else (upToMatching depth false false rest).map (closeBrace :: ·) := by
    rw [upToMatching, if_neg Bool.false_ne_true, if_neg (by decide), if_neg (by decide),
      if_pos rfl]
    rfl
  rw [hbytes, List.append_assoc, List.cons_append, upToMatching, if_neg Bool.false_ne_true,
    if_neg (by decide), if_pos rfl, List.singleton_append, h (depth + 1) (Nat.succ_pos depth),
    hend]
  split_ifs
  · rfl
  · rw [Option.map_map, Option.map_map]
    congr 1
    ext scanned : 1
    simp

/-- Braces around what is passed over are passed over. -/
theorem neutral_braces (h : Neutral text) : Neutral ('{' :: text ++ ['}']) := by
  intro depth hdepth rest
  rw [upToMatching_braces h, if_neg hdepth.ne']

theorem neutral_brackets (h : Neutral text) : Neutral ('[' :: text ++ [']']) :=
  ((isQuiet_cons.mpr ⟨by simp, isQuiet_nil⟩).neutral.append h).append
    (isQuiet_cons.mpr ⟨by simp, isQuiet_nil⟩).neutral

theorem neutral_padded {before after : List Char} (hbefore : IsBlank before) (h : Neutral text)
    (hafter : IsBlank after) : Neutral (before ++ text ++ after) :=
  ((isQuiet_blank hbefore).neutral.append h).append (isQuiet_blank hafter).neutral

theorem neutral_member {before name between blank after : List Char} (hbefore : IsBlank before)
    (hname : IsString name) (hbetween : IsBlank between) (hblank : IsBlank blank)
    (h : Neutral text) (hafter : IsBlank after) :
    Neutral (before ++ name ++ between ++ ':' :: blank ++ text ++ after) := by
  have hnamed := neutral_padded hbefore (neutral_string hname) hbetween
  have hcolon : IsQuiet (':' :: blank) := isQuiet_cons.mpr ⟨by simp, isQuiet_blank hblank⟩
  exact ((hnamed.append hcolon.neutral).append h).append (isQuiet_blank hafter).neutral

mutual

theorem neutral_value {text : List Char} : IsValue text → Neutral text
  | .word h => (isQuiet_word h).neutral
  | .number h => (isQuiet_number h).neutral
  | .string h => neutral_string h
  | .array h => neutral_array h
  | .object h => by
      obtain ⟨inner, rfl, hinner⟩ := neutral_object h
      exact neutral_braces hinner

theorem neutral_array {text : List Char} : IsArray text → Neutral text
  | .empty h => neutral_brackets (isQuiet_blank h).neutral
  | .elements h => neutral_brackets (neutral_elements h)

theorem neutral_elements {text : List Char} : IsElements text → Neutral text
  | .last hbefore h hafter => neutral_padded hbefore (neutral_value h) hafter
  | .cons hbefore h hafter htext =>
      (neutral_padded hbefore (neutral_value h) hafter).append
        ((isQuiet_cons.mpr ⟨by simp, isQuiet_nil⟩).neutral.append (neutral_elements htext))

/-- What is between the braces of an object is passed over inside of them. -/
theorem neutral_object {text : List Char} :
    IsObject text → ∃ inner, text = '{' :: inner ++ ['}'] ∧ Neutral inner
  | .empty h => ⟨_, rfl, (isQuiet_blank h).neutral⟩
  | .members h => ⟨_, rfl, neutral_members h⟩

theorem neutral_members {text : List Char} : IsMembers text → Neutral text
  | .last hbefore hname hbetween hblank h hafter =>
      neutral_member hbefore hname hbetween hblank (neutral_value h) hafter
  | .cons hbefore hname hbetween hblank h hafter htext =>
      (neutral_member hbefore hname hbetween hblank (neutral_value h) hafter).append
        ((isQuiet_cons.mpr ⟨by simp, isQuiet_nil⟩).neutral.append (neutral_members htext))

end

end values

/-- From a line whose first brace opens an object, exactly the text of the object is taken. -/
theorem trimToJsonObject_append {before : List UInt8} (hbefore : openBrace ∉ before)
    {text : List Char} (h : IsObject text) (after : List UInt8) :
    trimToJsonObject (before ++ bytesOf text ++ after) = some (bytesOf text) := by
  obtain ⟨inner, rfl, hinner⟩ := neutral_object h
  have hdrop : (before ++ bytesOf ('{' :: inner ++ ['}']) ++ after).dropWhile (· ≠ openBrace) =
      bytesOf ('{' :: inner ++ ['}']) ++ after := by
    rw [List.append_assoc, List.dropWhile_append_of_pos]
    · rfl
    · intro b hb
      exact decide_eq_true fun heq => hbefore (heq ▸ hb)
  rw [trimToJsonObject, hdrop, upToMatching_braces hinner, if_pos rfl]

/-- A quote and a brace in a name do not end the object. -/
theorem trimToJsonObject_append_escaped :
    trimToJsonObject
        ([65] ++ bytesOf ['{', '"', '\\', '"', '}', '"', ':', '[', ']', '}'] ++ [125]) =
      some (bytesOf ['{', '"', '\\', '"', '}', '"', ':', '[', ']', '}']) := by
  have hblank : IsBlank [] := fun _ h => absurd h List.not_mem_nil
  have hname : IsString ['"', '\\', '"', '}', '"'] :=
    .mk (.escaped (.short (by simp)) (.unescaped (by decide) (by decide) (by decide) .nil))
  have hvalue : IsValue ['[', ']'] := .array (.empty hblank)
  have hobject : IsObject ['{', '"', '\\', '"', '}', '"', ':', '[', ']', '}'] :=
    .members (.last hblank hname hblank hblank hvalue hblank)
  exact trimToJsonObject_append (by decide) hobject [125]

end Miningcore.StratumConnection
