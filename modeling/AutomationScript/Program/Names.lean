/-!
# Reserved names

Names of categories that have a meaning of their own, and the kind of the condition that links the
actions of a trigger.
-/

namespace AutomationScript

/-- The category of a setting's current value. -/
def settingCurrent : String := "SettingCurrent"

/-- The category of a setting's default value. -/
def settingDefault : String := "SettingDefault"

/-- The category of values that have names of their own. -/
def otherName : String := "Other"

/-- The category of texts that the runtime evaluates. -/
def evalName : String := "Eval"

/-- The kind of the condition that waits for the action before. -/
def chainName : String := "chain"

/-- Whether a category is keyed by settings. -/
def isSettingBase (name : String) : Bool :=
  name = settingCurrent ∨ name = settingDefault

end AutomationScript
