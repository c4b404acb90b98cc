import P11k.Gitstatus.Protocol

/-! Responses one after another on the wire, and what a reader gets who cuts at the separators. -/
namespace P11k.Gitstatus
open P11k

/-- The source's `field::COUNT`. -/
def fieldCount : Nat := 27

/-- The source's `Response`, whose flag and fields may disagree. -/
structure WireResponse where
  id : Bytes
  isRepo : Bool
  fields : Option (Vector Bytes fieldCount)

def WireResponse.complete (r : WireResponse) : Prop := r.isRepo = true → r.fields.isSome = true

/-- A repository without fields panics, which is `none` here. -/
def writeResponse (r : WireResponse) : Option Bytes :=
  let start := safePrint r.id ++ [fieldSep] ++ [if r.isRepo then 49 else 48]
  if r.isRepo then
    r.fields.map fun fields => start ++ (fields.toList.flatMap fun f => fieldSep :: safePrint f) ++ [msgSep]
  else some (start ++ [msgSep])

/-- What the protocol says of a response: the id, the flag, and each field of a repository in its
place, all of them printable. -/
def WireResponse.record (r : WireResponse) : List Bytes :=
  match r.isRepo, r.fields with
  | true, some fields => safePrint r.id :: [49] :: fields.toList.map safePrint
  | _, _ => [safePrint r.id,[48]]

theorem recordPrintable (r : WireResponse) : ∀ f ∈ r.record, ∀ c ∈ f, 0x20 ≤ c := by
  have printed : ∀ s, ∀ c ∈ safePrint s, 0x20 ≤ c := fun s c mem => (safePrintPrintable s c mem).1
  unfold WireResponse.record
  split
  · simp only [List.forall_mem_cons,List.forall_mem_map]
    exact ⟨printed r.id,⟨by decide,nofun⟩,fun f _ => printed f⟩
  · simp only [List.forall_mem_cons]
    exact ⟨printed r.id,⟨by decide,nofun⟩,nofun⟩

theorem recordFree {sep : UInt8} (steers : sep < 0x20) (r : WireResponse) : ∀ f ∈ r.record, sep ∉ f :=
  fun f inside mem => UInt8.not_le.mpr steers (recordPrintable r f inside sep mem)

theorem recordSome (r : WireResponse) : r.record ≠ [] := by
  unfold WireResponse.record
  split <;> exact List.cons_ne_nil _ _

/-- The record on the wire: its fields with a separator between each two of them. -/
def WireResponse.body (r : WireResponse) : Bytes := [fieldSep].intercalate r.record

theorem bodyFree (r : WireResponse) : msgSep ∉ r.body := by
  have free := recordFree (by decide : msgSep < 0x20) r
  unfold WireResponse.body
  cases record : r.record with
  | nil => nofun
  | cons id others =>
    rw [record] at free
    rw [Framing.intercalateFlat,List.mem_append,not_or]
    refine ⟨free id List.mem_cons_self,fun mem => ?_⟩
    obtain ⟨f,inside,here⟩ := List.mem_flatMap.mp mem
    rcases List.mem_cons.mp here with same | there
    · exact absurd same (by decide)
    · exact free f (List.mem_cons_of_mem id inside) there

theorem writeBody {r : WireResponse} (complete : r.complete) : writeResponse r = some (r.body ++ [msgSep]) := by
  obtain ⟨id,isRepo,fields⟩ := r
  cases isRepo with
  | false =>
    simp only [writeResponse,WireResponse.body,WireResponse.record,Framing.intercalateFlat,Bool.false_eq_true,
      if_false]
    simp
  | true =>
    cases fields with
    | none => exact absurd (complete rfl) Bool.false_ne_true
    | some fields =>
      simp only [writeResponse,WireResponse.body,WireResponse.record,Framing.intercalateFlat,if_true,Option.map_some,
        List.flatMap_cons,List.flatMap_map]
      simp

/-- The responses that the daemon has fields for are written as it writes them. -/
def Response.wire (r : Response) : WireResponse :=
  ⟨r.id,r.fields.isSome,r.fields.map fun f => ⟨f.inOrder.toArray,rfl⟩⟩

theorem wireWritten (r : Response) : r.wire.complete ∧ writeResponse r.wire = some (serializeResponse r) := by
  obtain ⟨id,fields⟩ := r
  cases fields with
  | none => exact ⟨nofun,by simp [writeResponse,Response.wire,serializeResponse,responseBody]⟩
  | some f =>
    have listed : (⟨f.inOrder.toArray,rfl⟩ : Vector Bytes fieldCount).toList = f.inOrder := rfl
    exact ⟨fun _ => rfl,by simp [writeResponse,Response.wire,serializeResponse,responseBody,listed]⟩

/-- Cut at the separators, any number of responses are their records again. -/
theorem responsesFramed (rs : List WireResponse) (complete : ∀ r ∈ rs, r.complete) :
    ∃ written, rs.mapM writeResponse = some written ∧
      (Framing.split msgSep written.flatten).1.map (·.splitOn fieldSep) = rs.map (·.record) ∧
      (Framing.split msgSep written.flatten).2 = [] ∧
      (∀ r ∈ rs, ∀ f ∈ r.record, fieldSep ∉ f ∧ msgSep ∉ f) ∧
      ∀ r ∈ rs, r.record.length = if r.isRepo then 2 + fieldCount else 2 := by
  have all : rs.mapM writeResponse = some (rs.map fun r => r.body ++ [msgSep]) := by
    induction rs with
    | nil => rfl
    | cons r rs ih =>
      rw [List.mapM_cons,writeBody (complete r List.mem_cons_self),
        ih fun s mem => complete s (List.mem_cons_of_mem r mem)]
      rfl
  have stream : (rs.map fun r => r.body ++ [msgSep]).flatten = Framing.join msgSep (rs.map (·.body)) := by
    rw [Framing.join,List.flatMap_map,List.flatMap_def]
  have clean : ∀ m ∈ rs.map (·.body), msgSep ∉ m := by
    simp only [List.forall_mem_map]
    exact fun r _ => bodyFree r
  have cut := Framing.splitJoin clean []
  rw [List.append_nil] at cut
  refine ⟨_,all,?_,?_,fun r _ f mem => ?_,fun r mem => ?_⟩
  · rw [stream,cut]
    simp only [Framing.split,List.append_nil,List.map_map]
    refine List.map_congr_left fun r _ => ?_
    exact List.splitOn_intercalate fieldSep (recordFree (by decide) r) (recordSome r)
  · rw [stream,cut]
    rfl
  · exact ⟨recordFree (by decide) r f mem,recordFree (by decide) r f mem⟩
  · obtain ⟨id,isRepo,fields⟩ := r
    cases isRepo with
    | false => rfl
    | true =>
      obtain ⟨fields,rfl⟩ := Option.isSome_iff_exists.mp (complete _ mem rfl)
      simp [WireResponse.record]
      omega

/-- An id and fields that hold both separators. -/
def hostile : List WireResponse :=
  [⟨[97,fieldSep],true,some (Vector.replicate fieldCount [msgSep,98])⟩,⟨[msgSep],false,none⟩]

theorem hostileFramed : ∃ written, hostile.mapM writeResponse = some written ∧
    (Framing.split msgSep written.flatten).1.map (·.splitOn fieldSep) =
      [[97,63] :: [49] :: List.replicate fieldCount [63,98],[[63],[48]]] := by
  have complete : ∀ r ∈ hostile, r.complete := by
    simp only [hostile,List.forall_mem_cons]
    exact ⟨fun _ => rfl,nofun,nofun⟩
  obtain ⟨written,all,records,_⟩ := responsesFramed hostile complete
  exact ⟨written,all,records.trans (by decide)⟩

end P11k.Gitstatus
