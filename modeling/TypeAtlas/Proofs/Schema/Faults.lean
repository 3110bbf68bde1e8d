import TypeAtlas.Proofs.Json.Faults
import TypeAtlas.Schema.Reading

/-!
# Faults of schemas

Every fault of a schema file has words that a console shows as they stand, and a file that is
well-formed UTF-8 has no string without a text. So that fault is left to files that are no text.

Main statement: `Schema.fair_ofOctets`.
-/

namespace TypeAtlas.Schema

open Json

theorem fair_texts : FairReader texts := fair_list fair_text

theorem fairMember_field : FairMember fieldMember := by
  intro s k path node h
  unfold fieldMember
  split
  · exact fair_keep fair_text (by decide) h node _
  · exact fair_keep fair_text (by decide) h node _
  · exact fair_keep fair_texts (by decide) h node _
  · exact fair_pass s node

theorem fair_readField : FairReader readField := by
  refine fair_object fairMember_field fun path s h => ?_
  refine .bind (fair_need (by decide) h _) fun name => ?_
  exact .bind (fair_need (by decide) h _) fun type => fair_ok _

theorem fairMember_method : FairMember methodMember := by
  intro s k path node h
  unfold methodMember
  split
  · exact fair_keep fair_text (by decide) h node _
  · exact fair_keep fair_text (by decide) h node _
  · exact fair_keep fair_texts (by decide) h node _
  · exact fair_keep fair_texts (by decide) h node _
  · exact fair_keep fair_texts (by decide) h node _
  · exact fair_pass s node

theorem fair_readMethod : FairReader readMethod :=
  fair_object fairMember_method fun _ _ h => .bind (fair_need (by decide) h _) fun _ => fair_ok _

theorem fairMember_constructor : FairMember constructorMember := by
  intro s k path node h
  unfold constructorMember
  split
  · exact fair_keep fair_texts (by decide) h node _
  · exact fair_keep fair_texts (by decide) h node _
  · exact fair_keep fair_texts (by decide) h node _
  · exact fair_pass s node

theorem fair_readConstructor : FairReader readConstructor :=
  fair_object fairMember_constructor fun _ c _ => fair_ok c

theorem fairMember_type : FairMember typeMember := by
  intro s k path node h
  unfold typeMember
  split
  case h_1 => exact fair_keep fair_text (by decide) h node _
  case h_2 => exact fair_keep fair_text (by decide) h node _
  case h_4 => exact fair_keep fair_textOrNull (by decide) h node _
  case h_6 => exact fair_keep fair_textOrNull (by decide) h node _
  case h_7 => exact fair_keep fair_textOrNull (by decide) h node _
  case h_9 => exact fair_keep (fair_list fair_readField) (by decide) h node _
  case h_10 => exact fair_keep (fair_list fair_readMethod) (by decide) h node _
  case h_11 => exact fair_keep (fair_list fair_readConstructor) (by decide) h node _
  case h_12 => exact fair_pass s node
  all_goals exact fair_keep fair_texts (by decide) h node _

theorem fair_readType : FairReader readType :=
  fair_object fairMember_type fun _ _ h => .bind (fair_need (by decide) h _) fun _ => fair_ok _

theorem fairMember_schema : FairMember schemaMember := by
  intro s k path node h
  unfold schemaMember
  split
  · exact fair_keep fair_text (by decide) h node _
  · exact fair_keep fair_anyObject (by decide) h node _
  · exact fair_keep fair_texts (by decide) h node _
  · exact fair_keep (fair_list fair_readType) (by decide) h node _
  · exact fair_pass s node

theorem fair_readSchema : FairReader readSchema :=
  fair_object fairMember_schema fun _ s _ => fair_ok s

/-- The faults of a schema file are fair: the one of a string without a text is none of a file that
    is well-formed UTF-8. -/
theorem fair_ofOctets (bs : Octets) : Fair (Text.decode? bs ≠ none) (ofOctets bs) :=
  (fair_read fair_readSchema _).mono gapless_ofOctets

end TypeAtlas.Schema
