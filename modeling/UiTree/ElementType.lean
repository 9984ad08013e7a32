/-!
# Element types

What an element is in the hierarchy: a closed set of types, each with a short name. Documents name
an element by its type's short name behind a fixed lead, and queries accept either form.
-/

namespace UiTree

/-- The types of elements. What a provider cannot map is `other`. -/
inductive ElementType where
  | other | any | application | group | window | sheet | drawer | alert | dialog | button
  | radioButton | radioGroup | checkBox | disclosureTriangle | popUpButton | comboBox
  | menuButton | toolbarButton | popover | keyboard | key | navigationBar | tabBar | tabGroup
  | toolbar | statusBar | table | tableRow | tableColumn | outline | outlineRow | browser
  | collectionView | slider | pageIndicator | progressIndicator | activityIndicator
  | segmentedControl | picker | pickerWheel | switch | toggle | link | image | icon | searchField
  | scrollView | scrollBar | staticText | textField | secureTextField | datePicker | textView
  | menu | menuItem | menuBar | menuBarItem | map | webView | incrementArrow | decrementArrow
  | timeline | ratingIndicator | valueIndicator | splitGroup | splitter | relevanceIndicator
  | colorWell | helpTag | matte | dockItem | ruler | rulerMarker | grid | levelIndicator | cell
  | layoutArea | layoutItem | handle | stepper | tab | touchBar | statusItem
deriving DecidableEq, Repr

namespace ElementType

instance : Inhabited ElementType := ⟨other⟩

/-- Every type. -/
def all : List ElementType :=
  [.other, .any, .application, .group, .window, .sheet, .drawer, .alert, .dialog, .button,
    .radioButton, .radioGroup, .checkBox, .disclosureTriangle, .popUpButton, .comboBox,
    .menuButton, .toolbarButton, .popover, .keyboard, .key, .navigationBar, .tabBar, .tabGroup,
    .toolbar, .statusBar, .table, .tableRow, .tableColumn, .outline, .outlineRow, .browser,
    .collectionView, .slider, .pageIndicator, .progressIndicator, .activityIndicator,
    .segmentedControl, .picker, .pickerWheel, .switch, .toggle, .link, .image, .icon,
    .searchField, .scrollView, .scrollBar, .staticText, .textField, .secureTextField,
    .datePicker, .textView, .menu, .menuItem, .menuBar, .menuBarItem, .map, .webView,
    .incrementArrow, .decrementArrow, .timeline, .ratingIndicator, .valueIndicator, .splitGroup,
    .splitter, .relevanceIndicator, .colorWell, .helpTag, .matte, .dockItem, .ruler,
    .rulerMarker, .grid, .levelIndicator, .cell, .layoutArea, .layoutItem, .handle, .stepper,
    .tab, .touchBar, .statusItem]

/-- The short name of a type. -/
def name : ElementType → String
  | other => "Other"
  | any => "Any"
  | application => "Application"
  | group => "Group"
  | window => "Window"
  | sheet => "Sheet"
  | drawer => "Drawer"
  | alert => "Alert"
  | dialog => "Dialog"
  | button => "Button"
  | radioButton => "RadioButton"
  | radioGroup => "RadioGroup"
  | checkBox => "CheckBox"
  | disclosureTriangle => "DisclosureTriangle"
  | popUpButton => "PopUpButton"
  | comboBox => "ComboBox"
  | menuButton => "MenuButton"
  | toolbarButton => "ToolbarButton"
  | popover => "Popover"
  | keyboard => "Keyboard"
  | key => "Key"
  | navigationBar => "NavigationBar"
  | tabBar => "TabBar"
  | tabGroup => "TabGroup"
  | toolbar => "Toolbar"
  | statusBar => "StatusBar"
  | table => "Table"
  | tableRow => "TableRow"
  | tableColumn => "TableColumn"
  | outline => "Outline"
  | outlineRow => "OutlineRow"
  | browser => "Browser"
  | collectionView => "CollectionView"
  | slider => "Slider"
  | pageIndicator => "PageIndicator"
  | progressIndicator => "ProgressIndicator"
  | activityIndicator => "ActivityIndicator"
  | segmentedControl => "SegmentedControl"
  | picker => "Picker"
  | pickerWheel => "PickerWheel"
  | switch => "Switch"
  | toggle => "Toggle"
  | link => "Link"
  | image => "Image"
  | icon => "Icon"
  | searchField => "SearchField"
  | scrollView => "ScrollView"
  | scrollBar => "ScrollBar"
  | staticText => "StaticText"
  | textField => "TextField"
  | secureTextField => "SecureTextField"
  | datePicker => "DatePicker"
  | textView => "TextView"
  | menu => "Menu"
  | menuItem => "MenuItem"
  | menuBar => "MenuBar"
  | menuBarItem => "MenuBarItem"
  | map => "Map"
  | webView => "WebView"
  | incrementArrow => "IncrementArrow"
  | decrementArrow => "DecrementArrow"
  | timeline => "Timeline"
  | ratingIndicator => "RatingIndicator"
  | valueIndicator => "ValueIndicator"
  | splitGroup => "SplitGroup"
  | splitter => "Splitter"
  | relevanceIndicator => "RelevanceIndicator"
  | colorWell => "ColorWell"
  | helpTag => "HelpTag"
  | matte => "Matte"
  | dockItem => "DockItem"
  | ruler => "Ruler"
  | rulerMarker => "RulerMarker"
  | grid => "Grid"
  | levelIndicator => "LevelIndicator"
  | cell => "Cell"
  | layoutArea => "LayoutArea"
  | layoutItem => "LayoutItem"
  | handle => "Handle"
  | stepper => "Stepper"
  | tab => "Tab"
  | touchBar => "TouchBar"
  | statusItem => "StatusItem"

/-- What leads the name of an element in a document. -/
def lead : String := "XCUIElementType"

/-- The name of an element of this type in a document. -/
def documentName (t : ElementType) : String :=
  lead ++ t.name

/-- The type with a short name. Case matters. -/
def ofShortName? (s : String) : Option ElementType :=
  all.find? (·.name == s)

/-- A name without the lead, if it has one. -/
def stripLead (s : String) : String :=
  if lead.toList.isPrefixOf s.toList then String.ofList (s.toList.drop lead.length) else s

/-- The type with a short name or a document name. -/
def ofName? (s : String) : Option ElementType :=
  ofShortName? (stripLead s)

theorem mem_all (t : ElementType) : t ∈ all := by
  cases t <;> decide

theorem isAlpha_of_mem_documentName {t : ElementType} {c : Char} (h : c ∈ t.documentName.toList) :
    c.isAlpha = true := by
  have hlead : lead.toList.all Char.isAlpha = true := by decide
  have hname : ∀ t ∈ all, t.name.toList.all Char.isAlpha = true := by decide +kernel
  rw [documentName, String.toList_append, List.mem_append] at h
  exact h.elim (List.all_eq_true.mp hlead c) (List.all_eq_true.mp (hname t t.mem_all) c)

theorem documentName_ne_nil (t : ElementType) : t.documentName.toList ≠ [] := by
  rw [documentName, String.toList_append]
  exact List.append_ne_nil_of_left_ne_nil (by decide) _

end ElementType

end UiTree
