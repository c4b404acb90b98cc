import P11k.Lib.Percent
import P11k.Render.Injection

/-! The target of a directory's link: what it decodes to, and where its sequence ends. -/
namespace P11k.Render
open P11k P11k.Settings P11k.Terminal

def byteKept (b : UInt8) : Bool := b.toNat < 128 && urlKeeps (Char.ofNat b.toNat)

theorem urlEscapeBytes (s : Str) : urlEscape s = Percent.escape byteKept (Utf8.encode s) := rfl

theorem keptSingle (b : UInt8) (kept : byteKept b = true) : b.toNat < 128 ∧ b ≠ 37 := by
  rw [byteKept,Bool.and_eq_true,decide_eq_true_eq] at kept
  refine ⟨kept.1,?_⟩
  rintro rfl
  exact absurd kept.2 (by decide)

theorem urlEscapeDecoded (s : Str) : Percent.decode (urlEscape s) = Utf8.encode s := by
  rw [urlEscapeBytes]
  exact Percent.decodeEscape keptSingle (Utf8.encode s)

theorem urlEscapeInjective : Function.Injective urlEscape := by
  intro s t same
  rw [urlEscapeBytes,urlEscapeBytes] at same
  exact Utf8.encodeInjective (Percent.escapeInjective keptSingle same)

theorem urlEscapeAlphabet (s : Str) : Percent.Escaped (urlKeeps · = true) (urlEscape s) := by
  rw [urlEscapeBytes]
  exact Percent.escapeEscaped (fun _ kept => (Bool.and_eq_true_iff.mp kept).2) (Utf8.encode s)

theorem linkOpensSpelt (cwd : Str) :
    linkOpens cwd = '\x1b' :: ']' :: ("8;;file://".toList ++ urlEscape cwd ++ ['\x07']) := by
  simp [linkOpens,esc]

theorem linkInside (cwd : Str) (b : Bool) {n : Nat} (some' : 0 < n) (short : n < (linkOpens cwd).length) :
    (run ⟨.ground,b⟩ ((linkOpens cwd).take n)).mode ≠ .ground := by
  rw [linkOpensSpelt] at short ⊢
  obtain ⟨n,rfl⟩ := Nat.exists_eq_add_of_lt some'
  rw [Nat.zero_add,List.take_succ_cons]
  cases n with
  | zero =>
    show Mode.escape ≠ .ground
    decide
  | succ n =>
    have inner : n ≤ ("8;;file://".toList ++ urlEscape cwd).length := by
      simp only [List.length_cons,List.length_append,List.length_nil] at short ⊢
      omega
    have quiet := plainQuiet (linkBody cwd)
    have part : ∀ c ∈ ("8;;file://".toList ++ urlEscape cwd).take n, c ∈ "8;;file://".toList ++ urlEscape cwd :=
      fun c mem => List.mem_of_mem_take mem
    rw [List.take_succ_cons,List.take_append_of_le_length inner]
    show (run ⟨.osc,b⟩ _).mode ≠ .ground
    rw [runOsc ⟨fun mem => quiet.1 (part _ mem),fun mem => quiet.2 (part _ mem)⟩]
    show Mode.osc ≠ .ground
    decide

/-- A link's target is the directory again once it is decoded, and nothing in it ends the link. -/
theorem linkTargetsHeld (s cwd : Str) :
    Percent.decode (urlEscape s) = Utf8.encode s ∧
    Function.Injective urlEscape ∧
    Percent.Escaped (urlKeeps · = true) (urlEscape s) ∧
    Plain (urlEscape cwd) ∧
    ∀ b, (∀ n, 0 < n → n < (linkOpens cwd).length → (run ⟨.ground,b⟩ ((linkOpens cwd).take n)).mode ≠ .ground) ∧
      run ⟨.ground,b⟩ (linkOpens cwd) = ⟨.ground,b⟩ := by
  refine ⟨urlEscapeDecoded s,urlEscapeInjective,urlEscapeAlphabet s,urlEscapePlain cwd,fun b => ⟨?_,?_⟩⟩
  · exact fun n some' short => linkInside cwd b some' short
  · rw [linkOpensSpelt]
    exact runCommand (plainQuiet (linkBody cwd)) b

theorem bellTargetHeld :
    Percent.decode (urlEscape "/a\x07é%".toList) = Utf8.encode "/a\x07é%".toList ∧
    urlEscape "/a\x07é%".toList = "/a%07%C3%A9%25".toList ∧
    (run {} ((linkOpens "/a\x07".toList).take 15)).mode ≠ .ground := by
  obtain ⟨decoded,_⟩ := linkTargetsHeld "/a\x07é%".toList []
  obtain ⟨_,_,_,_,ends⟩ := linkTargetsHeld [] "/a\x07".toList
  exact ⟨decoded,by decide,(ends false).1 15 (by decide) (by decide)⟩

end P11k.Render
