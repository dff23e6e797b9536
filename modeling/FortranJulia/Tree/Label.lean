/-!
Labels of the inner nodes of a syntax tree. A label says which phrase of the language a node
holds; its name is what trees print.
-/

namespace FortranJulia

set_option autoImplicit false

/-- The phrases of the language: program units, executable statements, input and output,
specification statements, expressions and names. -/
inductive Label where
  | program | loneName | endOfStmt | executableProgram | programUnit | mainProgram | programStmt
  | programName | endProgramStmt | endName | functionSubprogram | functionStmt | functionName
  | functionParList | dummyArgName | endFunctionStmt | subroutineSubprogram | subroutineStmt
  | subroutineName | subroutineParList | subroutinePar | endSubroutineStmt | blockDataSubprogram
  | blockDataStmt | blockDataName | endBlockDataStmt | body | bodyConstruct
  | executableConstruct | executionPartConstruct | actionStmt | arithmeticIfStmt | assignmentStmt
  | assignStmt | callStmt | subroutineNameUse | subroutineArgList | subroutineArg | continueStmt
  | goToKw | gotoStmt | computedGotoStmt | assignedGotoStmt | ifStmt | pauseStmt | returnStmt
  | stopStmt | stmtFunctionStmt | sfDummyArgNameList | sfDummyArgName | doConstruct | labelDoStmt
  | doLblRef | loopControl | ifConstruct | conditionalBody | ifThenStmt | elseIfStmt | elseStmt
  | endIfStmt
  | printStmt | formatIdentifier | outputItemList | outputItem | outputImpliedDo | inputItemList
  | inputItem | inputImpliedDo | readStmt | writeStmt | ioControlSpecList | ioControlSpec
  | unitIdentifier | openStmt | connectSpecList | connectSpec | closeStmt | closeSpecList
  | closeSpec | inquireStmt | inquireSpecList | inquireSpec | backspaceStmt | endfileStmt
  | rewindStmt | positionSpecList | positionSpec
  | specificationPartConstruct | declarationConstruct | specificationStmt | typeSpec
  | kindSelector | lengthSelector | typeDeclarationStmt | entityDeclList | entityDecl
  | objectName | arraySpec | explicitShapeSpec | lowerBound | upperBound | dimensionStmt
  | arrayDeclaratorList | arrayDeclarator | variableName | commonStmt | commonBlock | comblock
  | commonBlockName | commonBlockObjectList | commonBlockObject | dataStmt | dataStmtSet
  | dataStmtObjectList | dataStmtObject | dataImpliedDo | dataIDoObjectList | impliedDoVariable
  | dataStmtValueList | dataStmtValue | dataRepeat | namedConstantUse | dataConstant
  | equivalenceStmt | equivalenceSetList | equivalenceSet | equivalenceObjectList | externalStmt
  | externalNameList | externalName | intrinsicStmt | intrinsicList | intrinsicProcedureName
  | saveStmt | savedEntityList | savedEntity | implicitStmt | implicitSpecList | implicitSpec
  | implicitRangeList | implicitRange | parameterStmt | namedConstantDefList | namedConstantDef
  | namedConstant | formatStmt | fmtSpec | entryStmt | entryName
  | expr | orOp | orOperand | andOp | andOperand | level4Expr | relOp | level3Expr | concatOp
  | level2Expr | sign | addOp | addOperand | multOp | multOperand | powerOp | primary
  | unsignedArithmeticConstant | complexConst | complexComponent | logicalConstant
  | functionReference | refName | nameDataRef | complexDataRefTail | sectionSubscriptList
  | sectionSubscript | lblRef | lblRefList | lblDef | variableRef
  deriving DecidableEq, Repr

namespace Label

/-- The name of a label. -/
def name : Label → String
  | .program => "program"
  | .loneName => "SFVarName"
  | .endOfStmt => "EOS"
  | .executableProgram => "ExecutableProgram"
  | .programUnit => "ProgramUnit"
  | .mainProgram => "MainProgram"
  | .programStmt => "ProgramStmt"
  | .programName => "ProgramName"
  | .endProgramStmt => "EndProgramStmt"
  | .endName => "EndName"
  | .functionSubprogram => "FunctionSubprogram"
  | .functionStmt => "FunctionStmt"
  | .functionName => "FunctionName"
  | .functionParList => "FunctionParList"
  | .dummyArgName => "DummyArgName"
  | .endFunctionStmt => "EndFunctionStmt"
  | .subroutineSubprogram => "SubroutineSubprogram"
  | .subroutineStmt => "SubroutineStmt"
  | .subroutineName => "SubroutineName"
  | .subroutineParList => "SubroutineParList"
  | .subroutinePar => "SubroutinePar"
  | .endSubroutineStmt => "EndSubroutineStmt"
  | .blockDataSubprogram => "BlockDataSubprogram"
  | .blockDataStmt => "BlockDataStmt"
  | .blockDataName => "BlockDataName"
  | .endBlockDataStmt => "EndBlockDataStmt"
  | .body => "Body"
  | .bodyConstruct => "BodyConstruct"
  | .executableConstruct => "ExecutableConstruct"
  | .executionPartConstruct => "ExecutionPartConstruct"
  | .actionStmt => "ActionStmt"
  | .arithmeticIfStmt => "ArithmeticIfStmt"
  | .assignmentStmt => "AssignmentStmt"
  | .assignStmt => "AssignStmt"
  | .callStmt => "CallStmt"
  | .subroutineNameUse => "SubroutineNameUse"
  | .subroutineArgList => "SubroutineArgList"
  | .subroutineArg => "SubroutineArg"
  | .continueStmt => "ContinueStmt"
  | .goToKw => "GoToKw"
  | .gotoStmt => "GotoStmt"
  | .computedGotoStmt => "ComputedGotoStmt"
  | .assignedGotoStmt => "AssignedGotoStmt"
  | .ifStmt => "IfStmt"
  | .pauseStmt => "PauseStmt"
  | .returnStmt => "ReturnStmt"
  | .stopStmt => "StopStmt"
  | .stmtFunctionStmt => "StmtFunctionStmt"
  | .sfDummyArgNameList => "SFDummyArgNameList"
  | .sfDummyArgName => "SFDummyArgName"
  | .doConstruct => "DoConstruct"
  | .labelDoStmt => "LabelDoStmt"
  | .doLblRef => "DoLblRef"
  | .loopControl => "LoopControl"
  | .ifConstruct => "IfConstruct"
  | .conditionalBody => "ConditionalBody"
  | .ifThenStmt => "IfThenStmt"
  | .elseIfStmt => "ElseIfStmt"
  | .elseStmt => "ElseStmt"
  | .endIfStmt => "EndIfStmt"
  | .printStmt => "PrintStmt"
  | .formatIdentifier => "FormatIdentifier"
  | .outputItemList => "OutputItemList"
  | .outputItem => "OutputItem"
  | .outputImpliedDo => "OutputImpliedDo"
  | .inputItemList => "InputItemList"
  | .inputItem => "InputItem"
  | .inputImpliedDo => "InputImpliedDo"
  | .readStmt => "ReadStmt"
  | .writeStmt => "WriteStmt"
  | .ioControlSpecList => "IoControlSpecList"
  | .ioControlSpec => "IoControlSpec"
  | .unitIdentifier => "UnitIdentifier"
  | .openStmt => "OpenStmt"
  | .connectSpecList => "ConnectSpecList"
  | .connectSpec => "ConnectSpec"
  | .closeStmt => "CloseStmt"
  | .closeSpecList => "CloseSpecList"
  | .closeSpec => "CloseSpec"
  | .inquireStmt => "InquireStmt"
  | .inquireSpecList => "InquireSpecList"
  | .inquireSpec => "InquireSpec"
  | .backspaceStmt => "BackspaceStmt"
  | .endfileStmt => "EndfileStmt"
  | .rewindStmt => "RewindStmt"
  | .positionSpecList => "PositionSpecList"
  | .positionSpec => "PositionSpec"
  | .specificationPartConstruct => "SpecificationPartConstruct"
  | .declarationConstruct => "DeclarationConstruct"
  | .specificationStmt => "SpecificationStmt"
  | .typeSpec => "TypeSpec"
  | .kindSelector => "KindSelector"
  | .lengthSelector => "LengthSelector"
  | .typeDeclarationStmt => "TypeDeclarationStmt"
  | .entityDeclList => "EntityDeclList"
  | .entityDecl => "EntityDecl"
  | .objectName => "ObjectName"
  | .arraySpec => "ArraySpec"
  | .explicitShapeSpec => "ExplicitShapeSpec"
  | .lowerBound => "LowerBound"
  | .upperBound => "UpperBound"
  | .dimensionStmt => "DimensionStmt"
  | .arrayDeclaratorList => "ArrayDeclaratorList"
  | .arrayDeclarator => "ArrayDeclarator"
  | .variableName => "VariableName"
  | .commonStmt => "CommonStmt"
  | .commonBlock => "CommonBlock"
  | .comblock => "Comblock"
  | .commonBlockName => "CommonBlockName"
  | .commonBlockObjectList => "CommonBlockObjectList"
  | .commonBlockObject => "CommonBlockObject"
  | .dataStmt => "DataStmt"
  | .dataStmtSet => "DataStmtSet"
  | .dataStmtObjectList => "DataStmtObjectList"
  | .dataStmtObject => "DataStmtObject"
  | .dataImpliedDo => "DataImpliedDo"
  | .dataIDoObjectList => "DataIDoObjectList"
  | .impliedDoVariable => "ImpliedDoVariable"
  | .dataStmtValueList => "DataStmtValueList"
  | .dataStmtValue => "DataStmtValue"
  | .dataRepeat => "DataRepeat"
  | .namedConstantUse => "NamedConstantUse"
  | .dataConstant => "DataConstant"
  | .equivalenceStmt => "EquivalenceStmt"
  | .equivalenceSetList => "EquivalenceSetList"
  | .equivalenceSet => "EquivalenceSet"
  | .equivalenceObjectList => "EquivalenceObjectList"
  | .externalStmt => "ExternalStmt"
  | .externalNameList => "ExternalNameList"
  | .externalName => "ExternalName"
  | .intrinsicStmt => "IntrinsicStmt"
  | .intrinsicList => "IntrinsicList"
  | .intrinsicProcedureName => "IntrinsicProcedureName"
  | .saveStmt => "SaveStmt"
  | .savedEntityList => "SavedEntityList"
  | .savedEntity => "SavedEntity"
  | .implicitStmt => "ImplicitStmt"
  | .implicitSpecList => "ImplicitSpecList"
  | .implicitSpec => "ImplicitSpec"
  | .implicitRangeList => "ImplicitRangeList"
  | .implicitRange => "ImplicitRange"
  | .parameterStmt => "ParameterStmt"
  | .namedConstantDefList => "NamedConstantDefList"
  | .namedConstantDef => "NamedConstantDef"
  | .namedConstant => "NamedConstant"
  | .formatStmt => "FormatStmt"
  | .fmtSpec => "FmtSpec"
  | .entryStmt => "EntryStmt"
  | .entryName => "EntryName"
  | .expr => "Expr"
  | .orOp => "OrOp"
  | .orOperand => "OrOperand"
  | .andOp => "AndOp"
  | .andOperand => "AndOperand"
  | .level4Expr => "Level4Expr"
  | .relOp => "RelOp"
  | .level3Expr => "Level3Expr"
  | .concatOp => "ConcatOp"
  | .level2Expr => "Level2Expr"
  | .sign => "Sign"
  | .addOp => "AddOp"
  | .addOperand => "AddOperand"
  | .multOp => "MultOp"
  | .multOperand => "MultOperand"
  | .powerOp => "PowerOp"
  | .primary => "Primary"
  | .unsignedArithmeticConstant => "UnsignedArithmeticConstant"
  | .complexConst => "ComplexConst"
  | .complexComponent => "ComplexComponent"
  | .logicalConstant => "LogicalConstant"
  | .functionReference => "FunctionReference"
  | .refName => "Name"
  | .nameDataRef => "NameDataRef"
  | .complexDataRefTail => "ComplexDataRefTail"
  | .sectionSubscriptList => "SectionSubscriptList"
  | .sectionSubscript => "SectionSubscript"
  | .lblRef => "LblRef"
  | .lblRefList => "LblRefList"
  | .lblDef => "LblDef"
  | .variableRef => "Variable"

end Label

end FortranJulia
