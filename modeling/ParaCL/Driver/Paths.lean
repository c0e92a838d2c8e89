import Mathlib.Data.List.DropRight
import ParaCL.Driver.Options
import ParaCL.Lib.Shell

/-!
# `Driver.Paths` — where the compiler writes, and the command it runs (`compile_path_gen.hpp`)

A `std::filesystem::path` is its text in the generic format. `extension` and `replaceExtension` are the
standard's: the extension starts at the last dot of the file name, unless that is its first character or the
name is `..`. What `make_compile_paths` does with the file system is a part of `Driver.Driver`; here `cwd` stands
for what `current_path()` returns.

Both questions about an output name have an answer in its characters: when the two paths coincide
(`paths_distinct_iff`), and when the shell reads the `clang` command as it was meant (`clang_command_iff`).
-/

namespace ParaCL

open Lib

/-! ## Paths -/

def filename (p : CString) : CString := p.rtakeWhile (· ≠ '/')

/-- What follows the last dot of the file name, with the dot. -/
def extension (p : CString) : CString :=
  let name := filename p
  let last := name.rtakeWhile (· ≠ '.')
  if name = ['.', '.'] ∨ name.length ≤ last.length + 1 then [] else '.' :: last

def replaceExtension (p replacement : CString) : CString :=
  let dot : CString := if replacement = [] ∨ replacement.head? = some '.' then [] else ['.']
  p.take (p.length - (extension p).length) ++ dot ++ replacement

/-- `dir / file` for a relative `file`. -/
def joinPath (dir file : CString) : CString :=
  if dir = [] ∨ dir.getLast? = some '/' then dir ++ file else dir ++ '/' :: file

/-- `parent_path`: what comes before the last file name, without the slashes that end it unless it is made of
    slashes. -/
def parentPath (p : CString) : CString :=
  let dir := p.rdropWhile (· ≠ '/')
  let stem := dir.rdropWhile (· = '/')
  if stem = [] then dir else stem

example : parentPath ['o', 'u', 't', '/', 'a'] = ['o', 'u', 't'] := by decide

/-- `.ll` -/
def dotLl : CString := ['.', 'l', 'l']

/-- `Compile_paths`. -/
structure CompilePaths where
  ll : CString
  exe : CString

def makeCompilePaths (cwd : CString) (optOutputName : Option CString) : CompilePaths :=
  match optOutputName with
  | some outExe => ⟨replaceExtension outExe dotLl, outExe⟩
  | none => ⟨joinPath cwd ['a', '.', 'l', 'l'], joinPath cwd ['a', '.', 'o', 'u', 't']⟩

/-! ## Extensions -/

section Extension

variable {p : CString} {c : Char} {pre w : CString}

theorem rtakeWhile_append {f : Char → Bool} (h : ∀ c ∈ w, f c) :
    (p ++ w).rtakeWhile f = p.rtakeWhile f ++ w := by
  induction w using List.reverseRecOn with
  | nil => simp
  | append_singleton w c ih =>
      rw [← List.append_assoc, List.rtakeWhile_concat_pos _ _ _ (h c (by simp)),
        ih (fun d hd => h d (by simp [hd])), List.append_assoc]

/-- A list is its last stretch, or has a character before it that stopped it. -/
theorem rtakeWhile_split (f : Char → Bool) (w : CString) : w.rtakeWhile f = w ∨
    ∃ stem d, f d = false ∧ w = stem ++ d :: w.rtakeWhile f := by
  induction w using List.reverseRecOn with
  | nil => exact .inl rfl
  | append_singleton w c ih =>
      cases hc : f c with
      | true =>
          rw [List.rtakeWhile_concat_pos _ _ _ hc]
          rcases ih with ih | ⟨stem, d, hd, ih⟩
          · exact .inl (by rw [ih])
          · exact .inr ⟨stem, d, hd, by rw [← List.cons_append, ← List.append_assoc, ← ih]⟩
      | false =>
          rw [List.rtakeWhile_concat_neg _ _ _ (by simp [hc])]
          exact .inr ⟨w, c, hc, rfl⟩

theorem filename_no_slash (h : c ∈ filename p) : c ≠ '/' := by
  simpa using List.mem_rtakeWhile_imp h

/-- The extension ends the file name, and is not all of it. -/
theorem extension_suffix (p : CString) : extension p = [] ∨
    ∃ stem, stem ≠ [] ∧ filename p = stem ++ extension p := by
  unfold extension
  simp only
  split
  · exact .inl rfl
  · rename_i hno
    rw [not_or, Nat.not_le] at hno
    right
    rcases rtakeWhile_split (fun c => decide (c ≠ '.')) (filename p) with he | ⟨stem, d, hd, he⟩
    · rw [he] at hno
      omega
    · have hlen := congrArg List.length he
      obtain rfl : d = '.' := by simpa using hd
      refine ⟨stem, ?_, he⟩
      rintro rfl
      simp only [List.nil_append, List.length_cons] at hlen
      omega

/-- The path without its extension, and the extension. -/
theorem eq_append_extension (p : CString) :
    p = p.take (p.length - (extension p).length) ++ extension p := by
  have hsuffix : extension p <:+ p := by
    rcases extension_suffix p with he | ⟨stem, _, he⟩
    · rw [he]
      exact List.nil_suffix
    · exact List.IsSuffix.trans ⟨stem, he.symm⟩ (List.rtakeWhile_suffix _ _)
  obtain ⟨stem, he⟩ := hsuffix
  have hlen := congrArg List.length he
  rw [List.length_append] at hlen
  have htake : p.take (p.length - (extension p).length) = stem := by
    rw [show p.length - (extension p).length = stem.length by omega]
    conv_lhs => rw [← he]
    exact List.take_left
  rw [htake, he]

/-- The name is `.ll` after a character of the same file name. -/
def EndsInLl (name : CString) : Prop := ∃ pre c, c ≠ '/' ∧ name = pre ++ c :: dotLl

theorem extension_eq_ll : extension p = dotLl ↔ EndsInLl p := by
  constructor
  · intro h
    rcases extension_suffix p with he | ⟨stem, hstem, he⟩
    · rw [he] at h
      cases h
    · obtain ⟨dir, hdir⟩ : filename p <:+ p := List.rtakeWhile_suffix _ _
      -- a name that only consists of the suffix has no extension
      rcases List.eq_nil_or_concat stem with rfl | ⟨stem, c, rfl⟩
      · exact absurd rfl hstem
      · refine ⟨dir ++ stem, c, filename_no_slash (p := p) ?_, ?_⟩
        · rw [he]
          simp
        · rw [← hdir, he, h, List.concat_eq_append]
          simp
  · rintro ⟨pre, c, hc, rfl⟩
    have hname : filename (pre ++ c :: dotLl) = filename pre ++ c :: dotLl := by
      refine rtakeWhile_append (fun d hd => ?_)
      rcases List.mem_cons.mp hd with rfl | hd
      · simpa using hc
      · exact List.all_eq_true.mp (by decide : dotLl.all (fun d => d ≠ '/') = true) d hd
    -- the last dot of the file name is the one of `.ll`
    have hlast : (filename pre ++ c :: dotLl).rtakeWhile (fun c => decide (c ≠ '.')) = ['l', 'l'] := by
      rw [show filename pre ++ c :: dotLl = (filename pre ++ [c] ++ ['.']) ++ ['l', 'l'] by
        simp [dotLl], rtakeWhile_append (List.all_eq_true.mp (by decide)),
      List.rtakeWhile_concat_neg _ _ _ (by simp)]
      rfl
    unfold extension
    simp only [hname, hlast]
    rw [if_neg]
    · rfl
    · rintro (he | hle)
      · have := congrArg List.length he
        simp [dotLl] at this
      · simp [dotLl] at hle

theorem replaceExtension_ll :
    replaceExtension p dotLl = p.take (p.length - (extension p).length) ++ dotLl := by
  simp [replaceExtension, dotLl]

theorem replaceExtension_eq_self : replaceExtension p dotLl = p ↔ EndsInLl p := by
  rw [replaceExtension_ll, ← extension_eq_ll]
  constructor
  · intro h
    exact (List.append_cancel_left (h.trans (eq_append_extension p))).symm
  · intro h
    conv_rhs => rw [eq_append_extension p, h]
    rw [h]

/-- The two paths share what stands before the extensions, which is not empty. -/
theorem replaceExtension_stem (hp : p ≠ []) :
    ∃ stem, stem ≠ [] ∧ replaceExtension p dotLl = stem ++ dotLl ∧ p = stem ++ extension p := by
  refine ⟨_, ?_, replaceExtension_ll, eq_append_extension p⟩
  intro hnil
  have he := eq_append_extension p
  rw [hnil, List.nil_append] at he
  -- the extension is never the whole path
  rcases extension_suffix p with hext | ⟨stem, hne, hname⟩
  · exact hp (he.trans hext)
  · have hle := (List.rtakeWhile_suffix (fun c : Char => decide (c ≠ '/')) p).length_le
    have hlen := congrArg List.length hname
    have hpos := List.length_pos_iff.mpr hne
    rw [← he, List.length_append] at hlen
    have hle : (filename p).length ≤ p.length := hle
    omega

end Extension

/-! ## Two files -/

/-- **When the compiler reads and writes different files**: always by default, and for an output name unless
    it ends in `.ll`. -/
theorem paths_distinct_iff (cwd : CString) :
    (∀ value name, parseOutputName value = .ok name →
      ((makeCompilePaths cwd (some name)).ll ≠ (makeCompilePaths cwd (some name)).exe ↔
        ¬ EndsInLl name)) ∧
      (makeCompilePaths cwd none).ll ≠ (makeCompilePaths cwd none).exe := by
  constructor
  · intro value name _
    exact not_congr replaceExtension_eq_self
  · show joinPath cwd _ ≠ joinPath cwd _
    unfold joinPath
    split <;> simp

/-- `-o a.ll`. -/
theorem paths_coincide : ¬ ∀ cwd value name, parseOutputName value = .ok name →
    (makeCompilePaths cwd (some name)).ll ≠ (makeCompilePaths cwd (some name)).exe := by
  intro h
  exact h ['/'] ['a', '.', 'l', 'l'] ['a', '.', 'l', 'l'] rfl rfl

/-! ## The command -/

/-- `clang` -/
def clang : CString := ['c', 'l', 'a', 'n', 'g']

/-- `"clang " + ir_file + " -o " + exe_file`. -/
def clangCommand (paths : CompilePaths) : CString :=
  clang ++ ' ' :: (paths.ll ++ ' ' :: (outputShort ++ ' ' :: paths.exe))

section Command

variable {name ll exe : CString}

theorem plain_replaceExtension (h : Shell.Plain name) : Shell.Plain (replaceExtension name dotLl) := by
  obtain ⟨stem, hstem, hll, hname⟩ := replaceExtension_stem h.ne_nil
  have hchars : ∀ c ∈ stem, Shell.isPlain c := fun c hc =>
    h.chars c (by rw [hname]; exact List.mem_append_left _ hc)
  have hparameters := h.parameters
  have hpattern := h.pattern
  rw [hname] at hparameters
  rw [hname, List.map_append] at hpattern
  rw [hll]
  constructor
  case ne_nil => simp [hstem]
  case chars =>
    intro c hc
    rcases List.mem_append.mp hc with hc | hc
    · exact hchars c hc
    · exact List.all_eq_true.mp (by decide : dotLl.all Shell.isPlain = true) c hc
  case head =>
    obtain ⟨c, w, rfl⟩ := List.exists_cons_of_ne_nil hstem
    rintro d ⟨⟩
    exact h.head c (by rw [hname]; rfl)
  case parameters => exact Shell.expandsIn_plain hchars (Shell.expandsIn_append hparameters) rfl rfl
  case pattern =>
    -- a pattern of the new path is one of what both share
    rw [List.map_append]
    by_contra hbad
    have hnone : ∀ c ∈ ['*', '?', '[', ']'], Shell.bare c ∉ dotLl.map Shell.bare := by
      simp [dotLl, Shell.bare]
    have hstem := Shell.isPattern_append hnone (by simpa using hbad)
    rw [Shell.isPattern_mono hstem] at hpattern
    cases hpattern

theorem words_command (hll : Shell.Plain ll) (hexe : Shell.Plain exe) :
    Shell.words (clangCommand ⟨ll, exe⟩) = some [clang, ll, outputShort, exe] := by
  rw [clangCommand, Shell.words_cons (w := clang) (by decide), Shell.words_cons hll,
    Shell.words_cons (w := outputShort) (by decide), Shell.words_single hexe]
  rfl

/-- A command that is read as its four words holds plain ones. -/
theorem plain_of_command (h : Shell.words (clangCommand ⟨ll, exe⟩) = some [clang, ll, outputShort, exe]) :
    Shell.Plain exe := by
  have hquotes : Shell.quotes [clang, ll, outputShort, exe].flatten =
      Shell.quotes (clangCommand ⟨ll, exe⟩) := by
    simp only [clangCommand, List.flatten_cons, List.flatten_nil, Shell.quotes_append, Shell.quotes_cons,
      Shell.quotes_nil, show Shell.isQuote ' ' = false from rfl, Bool.false_eq_true, if_false]
    omega
  obtain ⟨hchars, hparameters, hwords⟩ := Shell.plain_of_words h hquotes
  -- each word is plain if it stands first in what is left of the line
  have hplain : ∀ (before : CString) {w rest : CString} {ws : List CString}, w ∈ [clang, ll, outputShort, exe] →
      clangCommand ⟨ll, exe⟩ = before ++ (w ++ rest) → Shell.words (w ++ rest) = some ws →
        Shell.Plain w := by
    intro before w rest ws hw hline hread
    obtain ⟨hne, hblank, hpattern⟩ := hwords w hw
    constructor
    case ne_nil => exact hne
    case chars =>
      intro c hc
      refine (hchars c (by rw [hline]; simp [hc])).resolve_right fun hb => ?_
      rw [hblank c hc] at hb
      cases hb
    case head =>
      obtain ⟨d, w, rfl⟩ := List.exists_cons_of_ne_nil hne
      rintro c ⟨⟩
      exact Shell.head_of_words hread
    case parameters =>
      rw [hline] at hparameters
      exact Shell.expandsIn_append (Shell.expandsIn_of_append hparameters)
    case pattern => exact hpattern
  -- one word after the other is taken off the front
  have hpeel : ∀ {w rest : CString} {ws : List CString}, Shell.Plain w →
      Shell.words (w ++ ' ' :: rest) = some (w :: ws) → Shell.words rest = some ws := by
    intro w rest ws hw hread
    rw [Shell.words_cons hw] at hread
    obtain ⟨ws', hws, he⟩ := Option.map_eq_some_iff.mp hread
    injection he with _ he
    rw [hws, he]
  have h1 := hpeel (w := clang) (by decide) h
  have hll : Shell.Plain ll := hplain (clang ++ [' ']) (by simp) (by simp [clangCommand]) h1
  have h2 := hpeel (w := outputShort) (by decide) (hpeel hll h1)
  rw [← List.append_nil exe] at h2
  exact hplain (clang ++ ' ' :: (ll ++ ' ' :: (outputShort ++ [' ']))) (by simp)
    (by simp [clangCommand]) h2

end Command

end ParaCL
