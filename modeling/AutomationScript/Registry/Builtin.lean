import AutomationScript.Registry.Basic

/-!
# The built-in registry

The registry that scripts are compiled with unless a file extends it.
-/

namespace AutomationScript.Builtin

/-- The resources of the game. -/
def resources : List String :=
  ["Food", "Lumber", "Chrysotile", "Stone", "Crystal", "Furs", "Copper", "Iron", "Aluminium",
    "Cement", "Coal", "Oil", "Uranium", "Steel", "Titanium", "Alloy", "Polymer", "Iridium",
    "Helium_3", "Deuterium", "Neutronium", "Adamantite", "Infernite", "Elerium", "Nano_Tube",
    "Graphene", "Stanene", "Money", "Knowledge", "Plywood", "Brick", "Wrought_Iron",
    "Sheet_Metal", "Mythril"]

/-- The resources that the market trades. -/
def tradeable : List String :=
  ["Food", "Lumber", "Chrysotile", "Stone", "Crystal", "Furs", "Copper", "Iron", "Aluminium",
    "Cement", "Coal", "Oil", "Uranium", "Steel", "Titanium", "Alloy", "Polymer", "Iridium",
    "Helium_3"]

/-- The fuels of a smelter. -/
def smelterFuels : List String :=
  ["Wood", "Coal", "Oil", "Inferno"]

/-- The buildings, with the place they stand in. -/
def buildings : List String :=
  ["city-windmill", "city-bank", "city-farm", "city-mill", "city-silo", "city-shed",
    "city-library", "city-university", "city-smelter", "city-factory", "city-mine",
    "city-coal_mine", "city-oil_well", "city-temple", "city-amphitheatre", "city-casino",
    "space-satellite", "space-propellant_depot", "space-gps", "space-moon_base"]

/-- The technologies. -/
def techs : List String :=
  ["tech-club", "tech-agriculture", "tech-farm_house", "tech-mining", "tech-bronze_pick",
    "tech-banking", "tech-windmill", "tech-smelting", "tech-steel", "tech-electricity",
    "tech-industrialization", "tech-rocketry", "tech-space", "tech-mad", "tech-theology"]

/-- The jobs. -/
def jobs : List String :=
  ["unemployed", "hunter", "farmer", "lumberjack", "quarry_worker", "crystal_miner", "scavenger",
    "miner", "coal_miner", "cement_worker", "entertainer", "priest", "professor", "scientist",
    "banker", "colonist", "space_miner", "hell_surveyor", "archaeologist", "pit_miner", "crew"]

/-- The large projects. -/
def arpaProjects : List String :=
  ["lhc", "stock_exchange", "launch_facility", "monument", "railway", "nexus", "roid_eject",
    "syphon"]

/-- The universes. -/
def universes : List String :=
  ["standard", "heavy", "antimatter", "evil", "micro", "magic"]

/-- The forms of government. -/
def governments : List String :=
  ["anarchy", "autocracy", "democracy", "oligarchy", "theocracy", "republic", "socialist",
    "corpocracy", "technocracy", "federation", "magic"]

/-- The settings with ids of their own. -/
def settings : List (String × ValueType) :=
  [
    ("autoEvolution", .boolean),
    ("autoMarket", .boolean),
    ("autoResearch", .boolean),
    ("autoBuild", .boolean),
    ("autoJobs", .boolean),
    ("autoSmelter", .boolean),
    ("autoCraft", .boolean),
    ("autoTrigger", .boolean),
    ("prestigeType", .string),
    ("minimumMoney", .number),
    ("tradeRouteMinimumMoneyPerSecond", .number),
    ("jobLumberWeighting", .number)
  ]

/-- The families of settings. -/
def families : List (String × Family) :=
  [
    ("Sell", ⟨"sell", tradeable, "resource", .boolean⟩),
    ("Buy", ⟨"buy", tradeable, "resource", .boolean⟩),
    ("SellRatio", ⟨"res_sell_r_", tradeable, "resource", .number⟩),
    ("BuyRatio", ⟨"res_buy_r_", tradeable, "resource", .number⟩),
    ("SmelterFuelPriority", ⟨"smelter_fuel_p_", smelterFuels, "fuel", .number⟩),
    ("JobPriority", ⟨"job_p_", jobs, "job", .number⟩),
    ("AutoBuild", ⟨"bat", buildings, "building", .boolean⟩),
    ("BuildingMax", ⟨"bld_m_", buildings, "building", .number⟩)
  ]

/-- The categories of values that the runtime can read. -/
def categories : List (String × Category) :=
  [
    (settingCurrent, ⟨none, none, "setting", none⟩),
    (settingDefault, ⟨none, none, "setting", none⟩),
    (otherName, ⟨none, none, "expression", none⟩),
    (evalName, ⟨none, none, "expression", none⟩),
    ("ResourceQuantity", ⟨some .number, some resources, "resource", none⟩),
    ("ResourceStorage", ⟨some .number, some resources, "resource", none⟩),
    ("ResourceIncome", ⟨some .number, some resources, "resource", none⟩),
    ("ResourceRatio", ⟨some .number, some resources, "resource", none⟩),
    ("ResourceDemanded", ⟨some .boolean, some resources, "resource", none⟩),
    ("BuildingCount", ⟨some .number, some buildings, "building", some (.namespaced "city")⟩),
    ("BuildingUnlocked", ⟨some .boolean, some buildings, "building", some (.namespaced "city")⟩),
    ("ResearchComplete", ⟨some .boolean, some techs, "tech", some (.namespaced "tech")⟩),
    ("ResearchUnlocked", ⟨some .boolean, some techs, "tech", some (.namespaced "tech")⟩),
    ("JobCount", ⟨some .number, some jobs, "job", some .lowercase⟩),
    ("JobMax", ⟨some .number, some jobs, "job", some .lowercase⟩),
    ("Universe", ⟨some .boolean, some universes, "universe", some .lowercase⟩),
    ("Government", ⟨some .boolean, some governments, "government", some .lowercase⟩)
  ]

/-- The values with names of their own. -/
def others : List (String × NamedValue) :=
  [
    ("BrokenCars", ⟨"bcar", .number⟩),
    ("Starving", ⟨"strv", .boolean⟩),
    ("MadToggle", ⟨"madt", .boolean⟩),
    ("Citizens", ⟨"pop", .number⟩),
    ("Wounded", ⟨"wnd", .number⟩)
  ]

/-- The kinds of trigger conditions. -/
def conditions : List (String × Vocabulary) :=
  [
    ("Built", ⟨"built", buildings, "building", none⟩),
    ("Researched", ⟨"researched", techs, "tech", none⟩),
    ("Unlocked", ⟨"unlocked", techs, "tech", none⟩)
  ]

/-- The kinds of trigger actions. -/
def actions : List (String × Vocabulary) :=
  [
    ("Research", ⟨"research", techs, "tech", none⟩),
    ("Build", ⟨"build", buildings, "building", none⟩),
    ("Arpa", ⟨"arpa", arpaProjects, "project", some "arpa"⟩)
  ]

end AutomationScript.Builtin

namespace AutomationScript

/-- The built-in registry. -/
def Registry.builtin : Registry where
  settings := .ofList Builtin.settings
  families := .ofList Builtin.families
  categories := .ofList Builtin.categories
  others := .ofList Builtin.others
  conditions := .ofList Builtin.conditions
  actions := .ofList Builtin.actions

end AutomationScript
