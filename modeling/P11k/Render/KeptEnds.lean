import P11k.Render.Segments
import P11k.Render.Shorten

/-! A name cut to its two ends with a mark between them: the branch of the repository, and a level of the path. -/
namespace P11k.Render
open P11k P11k.Settings

section ends
variable {s mark : Str} {front behind : Nat}

def ended (s mark : Str) (front behind : Nat) : Str := s.take front ++ (mark ++ s.drop (s.length - behind))

theorem endedLength (first : front ≤ s.length) (last : behind ≤ s.length) :
    (ended s mark front behind).length = front + (mark.length + behind) := by
  rw [ended,List.length_append,List.length_append,List.length_take,List.length_drop,Nat.min_eq_left first,
    Nat.sub_sub_self last]

theorem endsApart (room : front + behind ≤ s.length) :
    ∃ cut, s = s.take front ++ (cut ++ s.drop (s.length - behind)) := by
  refine ⟨(s.drop front).take (s.length - behind - front),?_⟩
  have behindFront : s.length - behind = front + (s.length - behind - front) := by omega
  have rest : s.drop (s.length - behind) = (s.drop front).drop (s.length - behind - front) := by
    rw [List.drop_drop]
    exact congrArg s.drop behindFront
  rw [rest,List.take_append_drop,List.take_append_drop]

theorem endedShort (first : front ≤ s.length) (last : behind ≤ s.length) :
    (ended s mark front behind).length ≤ s.length ↔ front + behind + mark.length ≤ s.length := by
  rw [endedLength first last]
  omega

end ends

theorem truncatePartShort (len : Nat) (delim : Str) (middle : Bool) (n i : Nat) (part : Str) :
    (truncatePart len delim middle n i part).text.length ≤ part.length := by
  rw [truncatePart]
  by_cases cut : 0 < i ∧ i + 1 < n ∧ len + (if middle then len else 0) + delim.length < part.length
  · rw [if_pos cut]
    have room := cut.2.2
    exact (endedShort (by omega) (by omega)).mpr (by omega)
  · rw [if_neg cut]

/-! The branch. -/

section branch
variable {φ : Type}

/-- The head and the tail that are kept; there are none when the whole name is. -/
def keptEnds (branch : Str) (seg : Segment φ) : Option (Str × Str) :=
  match countProp seg "shorten-length", countProp seg "shorten-min-length" with
  | some len, some least =>
    if branch.length ≤ least ∨ branch.length ≤ len then none
    else if strProp seg "shorten-strategy" [] = "truncate_middle".toList then
      some (branch.take len,branch.drop (branch.length - len))
    else some (branch.take len,[])
  | _, _ => none

structure ShortensApart (branch : Str) (seg : Segment φ) : Prop where
  short : (shortenBranch branch seg).length ≤ branch.length
  whole : keptEnds branch seg = none → shortenBranch branch seg = branch
  apart : ∀ head tail, keptEnds branch seg = some (head,tail) →
    shortenBranch branch seg = head ++ (strProp seg "shorten-delimiter" ['\u2026'] ++ tail) ∧
      ∃ cut, branch = head ++ (cut ++ tail)

/-- A name longer than both numbers, and no longer than its two ends. -/
structure EndsMeet (branch : Str) (seg : Segment φ) : Prop where
  middle : strProp seg "shorten-strategy" [] = "truncate_middle".toList
  between : ∃ len least, countProp seg "shorten-length" = some len ∧ countProp seg "shorten-min-length" = some least ∧
    least < branch.length ∧ len < branch.length ∧ branch.length ≤ len + len

inductive Shortened (branch : Str) (seg : Segment φ) : Prop where
  | whole (kept : keptEnds branch seg = none) (same : shortenBranch branch seg = branch)
      (fits : ¬ EndsMeet branch seg)
  | middle (len least : Nat) (length : countProp seg "shorten-length" = some len)
      (minimum : countProp seg "shorten-min-length" = some least) (long : least < branch.length)
      (more : len < branch.length) (strategy : strProp seg "shorten-strategy" [] = "truncate_middle".toList)
      (kept : keptEnds branch seg = some (branch.take len,branch.drop (branch.length - len)))
      (same : shortenBranch branch seg = ended branch (strProp seg "shorten-delimiter" ['\u2026']) len len)
  | right (len : Nat) (more : len < branch.length) (fits : ¬ EndsMeet branch seg)
      (kept : keptEnds branch seg = some (branch.take len,branch.drop branch.length))
      (same : shortenBranch branch seg = ended branch (strProp seg "shorten-delimiter" ['\u2026']) len 0)

theorem shortened (branch : Str) (seg : Segment φ) : Shortened branch seg := by
  cases length : countProp seg "shorten-length" with
  | none =>
    refine .whole (by rw [keptEnds,length]) (by rw [shortenBranch,length]) fun ⟨_,len,_,is,_⟩ => ?_
    exact absurd (length.symm.trans is) (by simp)
  | some len =>
    cases minimum : countProp seg "shorten-min-length" with
    | none =>
      refine .whole (by rw [keptEnds,length,minimum]) (by rw [shortenBranch,length,minimum])
        fun ⟨_,_,least,_,is,_⟩ => ?_
      exact absurd (minimum.symm.trans is) (by simp)
    | some least =>
      by_cases few : branch.length ≤ least ∨ branch.length ≤ len
      · refine .whole (by simp only [keptEnds,length,minimum,if_pos few])
          (by simp only [shortenBranch,length,minimum,if_pos few]) fun ⟨_,len',least',is,is',long,more,_⟩ => ?_
        cases length.symm.trans is
        cases minimum.symm.trans is'
        omega
      · have long : least < branch.length := by omega
        have more : len < branch.length := by omega
        by_cases strategy : strProp seg "shorten-strategy" [] = "truncate_middle".toList
        · exact .middle len least length minimum long more strategy
            (by simp only [keptEnds,length,minimum,if_neg few,if_pos strategy])
            (by simp only [shortenBranch,length,minimum,if_neg few,if_pos strategy,ended])
        · refine .right len more (fun meets => strategy meets.middle) ?_ ?_
          · simp only [keptEnds,length,minimum,if_neg few,if_neg strategy,List.drop_length]
          · simp only [shortenBranch,length,minimum,if_neg few,if_neg strategy,ended,Nat.sub_zero,List.drop_length,
              List.append_nil]

/-- A cut name is short and keeps its ends apart when there is room for both of them and the delimiter. -/
theorem shortensEnded {branch : Str} {seg : Segment φ} {len behind : Nat}
    (kept : keptEnds branch seg = some (branch.take len,branch.drop (branch.length - behind)))
    (same : shortenBranch branch seg = ended branch (strProp seg "shorten-delimiter" ['\u2026']) len behind)
    (room : len + behind + (strProp seg "shorten-delimiter" ['\u2026']).length ≤ branch.length) :
    ShortensApart branch seg where
  short := by
    rw [same]
    exact (endedShort (by omega) (by omega)).mpr room
  whole absent := by
    rw [kept] at absent
    cases absent
  apart head tail ends := by
    rw [kept] at ends
    cases ends
    exact ⟨same,endsApart (by omega)⟩

theorem branchShortened (branch : Str) (seg : Segment φ) (d : Char)
    (delim : strProp seg "shorten-delimiter" ['\u2026'] = [d]) :
    ShortensApart branch seg ↔ ¬ EndsMeet branch seg := by
  have one : (strProp seg "shorten-delimiter" ['\u2026']).length = 1 := by
    rw [delim]
    rfl
  cases shortened branch seg with
  | whole kept same fits =>
    refine iff_of_true ⟨by rw [same],fun _ => same,fun head tail ends => ?_⟩ fits
    rw [kept] at ends
    cases ends
  | right len more fits kept same =>
    exact iff_of_true (@shortensEnded φ branch seg len 0 kept same (by omega)) fits
  | middle len least length minimum long more strategy kept same =>
    constructor
    · rintro apart ⟨-,len',_,is,_,_,_,meets⟩
      cases length.symm.trans is
      have short := apart.short
      rw [same,endedShort (by omega) (by omega)] at short
      omega
    · intro fits
      refine shortensEnded kept same ?_
      by_contra tight
      exact fits ⟨strategy,len,least,length,minimum,long,more,by omega⟩

/-- Cut in the middle, once a name has more than `least` characters. -/
def middleCut (len least : Int64) : Segment Unit where
  props := ((SortedMap.empty.insert "shorten-length".toList (.int len)).insert "shorten-min-length".toList
    (.int least)).insert "shorten-strategy".toList (.str "truncate_middle".toList)

theorem branchShortenedMain : ShortensApart "feature/long".toList (middleCut 2 4) := by
  refine (branchShortened _ _ '\u2026' (by decide)).mpr fun ⟨_,len,_,is,_,_,_,meets⟩ => ?_
  cases (show countProp (middleCut 2 4) "shorten-length" = some 2 by decide).symm.trans is
  exact absurd meets (by decide)

/-- Eight characters of which five are kept at either end: eleven are shown. -/
theorem branchLengthened : ¬ ∀ (branch : Str) (seg : Segment Unit) (d : Char),
    strProp seg "shorten-delimiter" ['\u2026'] = [d] → ShortensApart branch seg := by
  intro claim
  have short := (claim "feature1".toList (middleCut 5 6) '\u2026' (by decide)).short
  exact absurd short (by decide)

end branch
end P11k.Render
