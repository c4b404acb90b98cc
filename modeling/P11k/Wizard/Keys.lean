import P11k.Wizard.Flow

/-! The keys of a keyboard at a question of the wizard. -/
namespace P11k.Wizard

section keys

/-- One key of a keyboard: a byte, Escape alone, Escape and a byte together (`Alt`), or the sequence of a cursor key. -/
inductive Stroke where
  | char (byte : UInt8) (whole : byte ≠ 27)
  | escape
  | alt (byte : UInt8) (whole : byte ≠ 91 ∧ byte ≠ 79)
  | sequence (opening : UInt8) (inner : List UInt8) (final : UInt8) (opens : opening = 91 ∨ opening = 79)
      (inside : ∀ b ∈ inner, isEscapeFinal b = false) (closes : isEscapeFinal final = true)

/-- The bytes of one key come together, and those of the next one later. -/
def Stroke.presses : Stroke → List Press
  | .char byte _ => [⟨byte,false⟩]
  | .escape => [⟨27,false⟩]
  | .alt byte _ => [⟨27,false⟩,⟨byte,true⟩]
  | .sequence opening inner final .. => ⟨27,false⟩ :: ⟨opening,true⟩ :: (inner.map fun b => ⟨b,true⟩) ++ [⟨final,true⟩]

def Stroke.meaning : Stroke → Option UInt8
  | .char byte _ => some (if byte = 3 then 113 else byte)
  | .escape | .alt .. => some 113
  | .sequence .. => none

def keysRead : Nat → List Press → List UInt8
  | 0, _ => []
  | n+1, ps => (key false ps).1 :: keysRead n (key false ps).2

def typed (strokes : List Stroke) : List Press := strokes.flatMap Stroke.presses

theorem typedApart (strokes : List Stroke) : ∀ p ∈ (typed strokes).head?, p.soon = false := by
  cases strokes with
  | nil => exact fun _ none' => absurd none' (by simp [typed])
  | cons stroke strokes => cases stroke <;> exact fun _ same => Option.some.inj same ▸ rfl

theorem escapeRead (strokes : List Stroke) : key false (⟨27,false⟩ :: typed strokes) = (113,typed strokes) := by
  have apart := typedApart strokes
  cases rest : typed strokes with
  | nil => rfl
  | cons p ps =>
    rw [rest] at apart
    simp only [key,apart p rfl]
    rfl

theorem insideRead {inner : List UInt8} (inside : ∀ b ∈ inner, isEscapeFinal b = false) {final : UInt8}
    (closes : isEscapeFinal final = true) (rest : List Press) :
    key true ((inner.map fun b => ⟨b,true⟩) ++ ⟨final,true⟩ :: rest) = key false rest := by
  induction inner with
  | nil => simp only [List.map_nil,List.nil_append,key,closes,Bool.not_true]
  | cons b inner ih =>
    obtain ⟨here,later⟩ := List.forall_mem_cons.mp inside
    simp only [List.map_cons,List.cons_append,key,here,Bool.not_false]
    exact ih later

/-- A call reads up to the next key that means something and no further. -/
theorem strokeRead (strokes : List Stroke) :
    (strokes.filterMap Stroke.meaning = [] ∧ key false (typed strokes) = (113,[])) ∨
    ∃ k later, strokes.filterMap Stroke.meaning = k :: later.filterMap Stroke.meaning ∧
      key false (typed strokes) = (k,typed later) := by
  induction strokes with
  | nil => exact .inl ⟨rfl,rfl⟩
  | cons stroke strokes ih =>
    cases stroke with
    | char byte whole =>
      refine .inr ⟨_,strokes,rfl,?_⟩
      have split : typed (.char byte whole :: strokes) = ⟨byte,false⟩ :: typed strokes := rfl
      have other : normalizeKey byte = if byte = 3 then 113 else byte := by simp only [normalizeKey,whole,or_false]
      rw [split,key.eq_def]
      dsimp only
      rw [if_pos whole,other]
    | escape => exact .inr ⟨113,strokes,rfl,escapeRead strokes⟩
    | alt byte whole =>
      refine .inr ⟨113,strokes,rfl,?_⟩
      have split : typed (.alt byte whole :: strokes) = ⟨27,false⟩ :: ⟨byte,true⟩ :: typed strokes := rfl
      rw [split]
      simp only [key,whole.1,whole.2,or_self]
      rfl
    | sequence opening inner final opens inside closes =>
      have split : typed (.sequence opening inner final opens inside closes :: strokes) =
          ⟨27,false⟩ :: ⟨opening,true⟩ :: ((inner.map fun b => ⟨b,true⟩) ++ ⟨final,true⟩ :: typed strokes) := by
        simp only [typed,List.flatMap_cons,Stroke.presses,List.cons_append,List.append_assoc,List.nil_append]
      have skipped : key false (typed (.sequence opening inner final opens inside closes :: strokes)) =
          key false (typed strokes) := by
        rw [split,← insideRead inside closes (typed strokes)]
        simp only [key,if_pos opens]
        rfl
      rw [skipped]
      exact ih

end keys
end P11k.Wizard
