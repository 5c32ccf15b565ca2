/-
Writing serialized rules and options.

A structure is written as a record of all its fields, a name as a text, a set of
bits as its width and its words.
-/
import TagGrammar.RuleTable
import TagGrammar.Safety.ScriptAccess
import TagGrammar.Serialized.Datum

namespace TagGrammar
namespace Datum

def ofTagName (name : TagName) : Datum := .text name.text

def ofTagNames (names : List TagName) : Datum := .list (names.map ofTagName)

def ofPolicy (p : Policy) : Datum := .text p.text

def ofAction (a : RuleAction) : Datum := .text a.text

def ofScriptAccess (s : ScriptAccess) : Datum := .text s.text

def ofTagOptions (o : TagOptions) : Datum :=
  .record
    [("default_child_rule", ofPolicy o.defaultChildRule),
     ("default_descendant_rule", ofPolicy o.defaultDescendantRule),
     ("disallow_as_root", .bool o.disallowAsRoot),
     ("disabled", .bool o.disabled),
     ("nesting_limit", ofNat o.nestingLimit),
     ("tag_limit", ofNat o.tagLimit),
     ("transparent", .bool o.transparent)]

def ofCheckOptions (o : CheckOptions) : Datum :=
  .record
    [("max_script_access", (o.maxScriptAccess.map ofScriptAccess).getD .null),
     ("fixed_url_exemption", ofScriptAccess o.fixedUrlExemption)]

def ofBitfield (b : Bitfield) : Datum :=
  .record [("len", ofNat b.width), ("words", .list (b.words.map fun w => ofNat w.toNat))]

def ofCompiledTag (t : CompiledTag) : Datum :=
  .record
    [("name", ofTagName t.name),
     ("ordinal", ofNat t.ordinal),
     ("allowed_children", ofBitfield t.allowedChildren),
     ("allowed_descendants", ofBitfield t.allowedDescendants),
     ("disallow_as_root", .bool t.disallowAsRoot),
     ("nesting_limit", ofNat t.nestingLimit),
     ("tag_limit", ofNat t.tagLimit),
     ("close_ancestor", ofTagNames t.closeAncestor),
     ("close_parent", ofTagNames t.closeParent),
     ("reopen_child", ofTagNames t.reopenChild),
     ("require_ancestor", ofTagNames t.requireAncestor),
     ("require_parent", ofTagNames t.requireParent)]

def ofRuleTable (t : RuleTable) : Datum := .list (t.tags.map ofCompiledTag)

end Datum
end TagGrammar
