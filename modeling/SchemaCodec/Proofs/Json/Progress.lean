import SchemaCodec.Proofs.Json.Reading
import Mathlib.Data.List.Infix

namespace SchemaCodec.Json

open SchemaCodec

/-! Tokens take up bytes: what is unread behind a token is the end of the text, and shorter. -/

/-- `rest` is what is left of `text` when at least one byte of it has been read. -/
structure Advances (text rest : List UInt8) : Prop where
  suffix : rest <:+ text
  shorter : rest.length < text.length

namespace Advances

variable {text inner rest : List UInt8}

theorem first (b : UInt8) (rest : List UInt8) : Advances (b :: rest) rest :=
  ⟨List.suffix_cons b rest, Nat.lt_succ_self rest.length⟩

private theorem past (h : Advances text inner) (hrest : rest <:+ inner) : Advances text rest :=
  ⟨hrest.trans h.suffix, Nat.lt_of_le_of_lt hrest.length_le h.shorter⟩

theorem trans (h : Advances text inner) (hrest : Advances inner rest) : Advances text rest :=
  h.past hrest.suffix

theorem within (h : Advances inner rest) (hinner : inner <:+ text) : Advances text rest :=
  ⟨h.suffix.trans hinner, Nat.lt_of_lt_of_le h.shorter hinner.length_le⟩

end Advances

private theorem rest_of_map {read : Option (List UInt8 × List UInt8)}
    {change : List UInt8 × List UInt8 → List UInt8 × List UInt8} {bytes rest : List UInt8}
    (hkeeps : ∀ bytes rest, (change (bytes, rest)).2 = rest)
    (h : read.map change = some (bytes, rest)) : ∃ bytes, read = some (bytes, rest) := by
  obtain ⟨⟨inner, tail⟩, hread, hpair⟩ := Option.map_eq_some_iff.mp h
  have htail : rest = tail := (congrArg Prod.snd hpair).symm.trans (hkeeps inner tail)
  exact ⟨inner, by rw [hread, htail]⟩

private theorem advances_of_unescape {high : Option Nat} {text bytes rest : List UInt8}
    (h : unescape high text = some (bytes, rest)) : Advances text rest := by
  -- Each escape and each plain byte stands before what the rest of the string has left.
  fun_induction unescape high text generalizing bytes
  case case1 => cases h
  case case2 ih | case3 ih | case4 ih | case6 ih | case7 ih =>
    obtain ⟨inner, hinner⟩ := rest_of_map (fun _ _ => rfl) h
    exact (ih hinner).within (List.suffix_append [_, _, _, _, _, _] _)
  case case5 ih => exact (ih h).within (List.suffix_append [_, _, _, _, _, _] _)
  case case8 ih =>
    obtain ⟨inner, hinner⟩ := rest_of_map (fun _ _ => rfl) h
    exact (ih hinner).within (List.suffix_append [_, _] _)
  case case9 => cases h
  case case10 =>
    cases h
    exact .first ..
  case case11 => cases h
  case case12 ih =>
    obtain ⟨inner, hinner⟩ := rest_of_map (fun _ _ => rfl) h
    exact (ih hinner).within (List.suffix_cons ..)

private theorem suffix_of_scanWord {word text rest : List UInt8} {value : Document} {token : Token}
    (h : scanWord word value text = .token token rest) : rest <:+ text := by
  unfold scanWord at h
  split at h
  · next hrest =>
      cases h
      exact ⟨word, List.append_eq_of_isPrefixOf?_eq_some hrest⟩
  · cases h

theorem advances_of_scan {text rest : List UInt8} {token : Token}
    (h : scan text = .token token rest) : Advances text rest := by
  have hstart {b : UInt8} {inner : List UInt8} (hfirst : text.dropWhile isFiller = b :: inner) :
      Advances text inner :=
    (Advances.first b inner).within (hfirst ▸ List.dropWhile_suffix isFiller)
  revert h
  fun_cases scan text
  case case1 | case7 | case12 =>
    intro h
    cases h
  case case2 hfirst | case3 hfirst _ | case4 hfirst _ _ | case5 hfirst _ _ _ =>
    intro h
    cases h
    exact hstart hfirst
  case case6 hstring hfirst _ _ _ _ =>
    intro h
    cases h
    exact (hstart hfirst).trans (advances_of_unescape hstring)
  case case8 hfirst _ _ _ _ _ _ _ =>
    intro h
    cases h
    exact (hstart hfirst).past (List.dropWhile_suffix isNumeric)
  case case9 hfirst _ _ _ _ _ _ | case10 hfirst _ _ _ _ _ _ _ | case11 hfirst _ _ _ _ _ _ _ _ =>
    intro h
    exact (hstart hfirst).past (suffix_of_scanWord h)

theorem advances_of_readKey {path : Pointer} {known : Document.Table Document.Draft} {key : String}
    {text inner : List UInt8} (h : readKey path known text = .ok (key, inner)) :
    Advances text inner :=
  advances_of_scan (cases_of_readKey h).1

theorem advances_of_close {contents found : Document.Draft} {text rest : List UInt8}
    (h : close contents text = .ok (found, rest)) : Advances text rest := by
  obtain ⟨-, token, hscan⟩ := cases_of_close h
  exact advances_of_scan hscan

end SchemaCodec.Json
