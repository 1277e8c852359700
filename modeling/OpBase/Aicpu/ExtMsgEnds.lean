import OpBase.Aicpu.CCArgs

/-!
# Whether the walk over the extend info ends

The loop of `ParseExtMsg` adds the head's size and `infoLen` to an offset of 32 bits (`not
overflow`, the source says), and an entry of a type that is ignored, or a shape's where the
shapes are known, may have any `infoLen`. So the offset can come back to where it was.

Which entry comes next, and whether it is accepted, depends on the offset and on the mark for
unknown shapes only.

> `parseExtMsg_ends_iff`: the loop ends if and only if no entry is come to twice with the same
> mark.
-/

namespace OpBase.Aicpu

open OpBase.Lib

variable {A : Adapter} {m : Mem}

/-- Whether the entry is accepted, and the mark for unknown shapes behind it. -/
def accepted (A : Adapter) (m : Mem) (unknownShape : Bool) (infoType infoLen extInfo : Nat) :
    Option Bool :=
  (parseExtEntry A m { unknownShape := unknownShape } infoType infoLen extInfo).toOption.map
    ExtInfoMsg.unknownShape

theorem shapeAndType_accepted (part : Bool) (len body : Nat) (l l' : List Nat) :
    (parseExtShapeAndType A part len body l).toOption.map (fun _ => part) =
      (parseExtShapeAndType A part len body l').toOption.map fun _ => part := by
  unfold parseExtShapeAndType
  split
  · rfl
  · split <;> rfl

theorem unknownShapeIndex_accepted (part : Bool) (len body : Nat) (l l' : List (Nat × Nat)) :
    (parseExtUnknownShapeIndex m len body l).toOption.map (fun _ => part) =
      (parseExtUnknownShapeIndex m len body l').toOption.map fun _ => part := by
  unfold parseExtUnknownShapeIndex
  split <;> rfl

theorem bind_toOption_map {ε α β γ : Type} (x : Except ε α) (f : α → β) (g : β → γ) :
    (x >>= fun a => Except.ok (f a)).toOption.map g = x.toOption.map fun a => g (f a) := by
  cases x <;> rfl

/-- Which entries are accepted depends on the message by one flag only. -/
theorem accepted_decides : Decides (parseExtEntry A m) ExtInfoMsg.unknownShape (accepted A m) := by
  intro msg infoType infoLen extInfo
  unfold accepted parseExtEntry
  split
  · rfl
  dsimp only
  split
  -- what is left of an entry is its check
  all_goals try rw [bind_toOption_map, bind_toOption_map]
  all_goals try rfl
  · exact shapeAndType_accepted _ _ _ _ _
  · exact shapeAndType_accepted _ _ _ _ _
  · exact unknownShapeIndex_accepted _ _ _ _ _
  · exact unknownShapeIndex_accepted _ _ _ _ _

/-- The offset and the mark for unknown shapes, from one entry to the next. -/
def nextEntry (A : Adapter) (m : Mem) (paramHead : Nat) : Nat × Bool → Option (Nat × Bool) :=
  advance A.extInfo (accepted A m) (2 ^ 32) m (A.paramHead.get m paramHead .extInfoAddr)
    (A.paramHead.get m paramHead .extInfoLength)

/-- The loop over the entries ends just when no entry leads back to an earlier one. -/
theorem parseExtMsg_ends_iff (A : Adapter) (m : Mem) (paramHead : Nat) (msg : ExtInfoMsg) :
    (∃ fuel, (parseExtMsg A m paramHead fuel msg).isSome = true) ↔
      ¬ Circles (nextEntry A m paramHead) (0, msg.unknownShape) :=
  walk_ends_iff accepted_decides (by decide) 0 _

/-- An ignored entry of 2³² - 8 bytes: the walk stays where it is. -/
theorem parseExtMsg_stays :
    ¬ ∃ fuel, (parseExtMsg packedAdapter (Str.ofList
      [0, 0, 0, 0, 0, 0, 0, 0, 8, 0, 0, 0, 20, 0, 0, 0, 0, 0, 0, 0,
        3, 0, 0, 0, 0xf8, 0xff, 0xff, 0xff]).byte 0 fuel {}).isSome = true := by
  intro h
  have hstep : nextEntry packedAdapter (Str.ofList
      [0, 0, 0, 0, 0, 0, 0, 0, 8, 0, 0, 0, 20, 0, 0, 0, 0, 0, 0, 0,
        3, 0, 0, 0, 0xf8, 0xff, 0xff, 0xff]).byte 0 (0, false) = some (0, false) := by
    decide
  exact (walk_ends_iff accepted_decides (by decide) 0 _).mp h
    ⟨(0, false), Relation.ReflTransGen.refl, Relation.TransGen.single hstep⟩

end OpBase.Aicpu
