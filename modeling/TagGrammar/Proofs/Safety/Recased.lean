/-
Names in another case.

The case of names means nothing in HTML, and each check has its own way to leave it out of
account: names are folded before they are compared, looked up in any case, or tested by how
they begin once they are folded.  So a name is the same for the checks in any case, and the
verdict does not change if a template is `Recased`.

A written attribute may even gain or lose the lead of an instruction attribute.  Under that
lead no check looks at what flows into it, and no attribute that begins so in any case is a
sink (`attributeSink?_of_isInstructionAttribute`).
-/
import TagGrammar.Proofs.Letter
import TagGrammar.Proofs.Safety.SameTrees
import TagGrammar.Proofs.Template.Recased

namespace TagGrammar

/-! ## Case and blanks -/

namespace Text

theorem isBlank_toLower (c : Char) : isBlank c.toLower = isBlank c := by
  by_cases halpha : c.isAlpha = true
  · have hlower : c.toLower.isAlpha = true := by rw [Char.isAlpha_toLower_eq_isAlpha, halpha]
    rw [isBlank_of_isLetter (isLetter_of_isAlpha halpha),
      isBlank_of_isLetter (isLetter_of_isAlpha hlower)]
  · rw [toLower_eq_self (Bool.eq_false_iff.mpr halpha)]

theorem skipBlanks_map_toLower (cs : List Char) :
    skipBlanks (cs.map Char.toLower) = (skipBlanks cs).map Char.toLower := by
  have hblank : isBlank ∘ Char.toLower = isBlank := funext isBlank_toLower
  rw [skipBlanks, List.dropWhile_map, hblank, skipBlanks]

theorem lower_trim (s : String) : lower (trim s) = trim (lower s) := by
  simp only [trim, lower, String.toList_ofList, skipBlanks_map_toLower, ← List.map_reverse]

end Text

open Safety

/-! ## Names for the same checks -/

theorem RecasedEntry.sameEntry {α : Type} {a a' : String × α} (h : RecasedEntry a a') :
    SameEntry a a' :=
  ⟨.of_lower h.name, h.value⟩

theorem RecasedElement.sameElement {e e' : Element} (h : RecasedElement e e') :
    SameElement e e' :=
  ⟨h.name, h.attributes.imp fun _ _ ha => ha.sameEntry⟩

namespace RecasedName

variable {name name' : String} (h : RecasedName name name')

include h

theorem sameMadeName : SameMadeName name name' :=
  .intro h.literalText? h.literalText?' fun _ _ => by rw [h.lower]

theorem isPhp_trim : isPhp (Text.trim name') = isPhp (Text.trim name) := by
  refine Text.sameIgnoringCase_congr ?_ "php"
  rw [Text.lower_trim, h.lower, Text.lower_trim]

end RecasedName

theorem RecasedValue.sameValue {v v' : Value} (h : RecasedValue v v') : SameValue v v' := by
  cases h with
  | refl => exact .refl v
  | element h => exact .element h.sameElement
  | dynamicElement h namespaceName sets => exact .dynamicElement h.sameMadeName namespaceName sets
  | attributeConstructor h namespaceName =>
    exact .attributeConstructor h.plain h.plain' (.of_lower h.lower) namespaceName
  | processingInstructionConstructor h =>
    exact .processingInstructionConstructor h.plain h.plain' h.isPhp_trim

mutual

theorem Recased.sameTree : ∀ {n n' : Node}, Recased n n' → SameTree n n'
  | _, _, .node hv hcs => .node hv.sameValue hcs.sameTrees

theorem RecasedAll.sameTrees : ∀ {l l' : List Node}, RecasedAll l l' → SameTrees l l'
  | _, _, .nil => .nil
  | _, _, .cons h hrest => .cons h.sameTree hrest.sameTrees

end

namespace Safety

/-- The verdict is the same for a template with names in another case. -/
theorem accepts_recased (g : Grant) {template template' : Node} (h : Recased template template') :
    accepts g template' = accepts g template :=
  accepts_same g h.sameTree

/-- A tag without attributes. -/
def boldGrant : Grant where
  tag := { name := ⟨"B"⟩ }
  lookup := FilterRegistry.default.lookup

/-- A script from an address and an element made with a handler, under given names. -/
def handlerTemplate (script source element handler target select : String) : Node where
  value := .root
  children :=
    [{ value := .element { name := script, attributes := [(source, "/a.js")] } },
      { value := .dynamicElement element none none
        children :=
          [{ value := .attributeConstructor handler none
             children := [{ value := .insertion select }] }] },
      { value := .processingInstructionConstructor target }]

theorem recased_handlerTemplate (select : String) :
    Recased (handlerTemplate "script" "src" "b" "onclick" "note" select)
      (handlerTemplate "SCRIPT" "Src" "B" "onClick" "Note" select) := by
  have hscript : RecasedElement { name := "script", attributes := [("src", "/a.js")] }
      { name := "SCRIPT", attributes := [("Src", "/a.js")] } :=
    ⟨by decide, rfl, .cons ⟨by decide, rfl⟩ .nil⟩
  have hhandler : RecasedAll
      [{ value := .attributeConstructor "onclick" none
         children := [{ value := .insertion select }] }]
      [{ value := .attributeConstructor "onClick" none
         children := [{ value := .insertion select }] }] :=
    .cons (.node (.attributeConstructor ⟨by decide, by decide⟩ none)
      (.cons (.node (.refl _) .nil) .nil)) .nil
  exact .node (.refl _) <|
    .cons (.node (.element hscript) .nil) <|
    .cons (.node (.dynamicElement ⟨by decide, by decide⟩ none none) hhandler) <|
    .cons (.node (.processingInstructionConstructor ⟨by decide, by decide⟩) .nil) .nil

/-- In either case a handler may be a constant and no attribute that the tag does not have. -/
theorem accepts_recased_handler :
    Recased (handlerTemplate "script" "src" "b" "onclick" "note" "'f()'")
        (handlerTemplate "SCRIPT" "Src" "B" "onClick" "Note" "'f()'") ∧
      accepts boldGrant (handlerTemplate "script" "src" "b" "onclick" "note" "'f()'") = true ∧
      accepts boldGrant (handlerTemplate "SCRIPT" "Src" "B" "onClick" "Note" "'f()'") = true ∧
      accepts boldGrant (handlerTemplate "script" "src" "b" "onclick" "note" "@text") = false ∧
      accepts boldGrant (handlerTemplate "SCRIPT" "Src" "B" "onClick" "Note" "@text") = false := by
  have hconstant : accepts boldGrant
      (handlerTemplate "script" "src" "b" "onclick" "note" "'f()'") = true := by decide +kernel
  have hattribute : accepts boldGrant
      (handlerTemplate "script" "src" "b" "onclick" "note" "@text") = false := by decide +kernel
  refine ⟨recased_handlerTemplate "'f()'", hconstant, ?_, hattribute, ?_⟩
  · rw [accepts_recased boldGrant (recased_handlerTemplate "'f()'"), hconstant]
  · rw [accepts_recased boldGrant (recased_handlerTemplate "@text"), hattribute]

end Safety
end TagGrammar
