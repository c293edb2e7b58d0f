import EntityLoom.ClassFile.Descriptor

/-!
# Names of the persistence runtime

The types of the runtime that woven code links against, and the names of the synthesized members.
The runtime finds members by these names.
-/

namespace EntityLoom.Names

/-! ## Types -/

def object : String := "java/lang/Object"
def cloneable : String := "java/lang/Cloneable"

def woven : String := "org/eclipse/persistence/internal/weaving/PersistenceWeaved"
def wovenLazy : String := "org/eclipse/persistence/internal/weaving/PersistenceWeavedLazy"
def wovenChangeTracking : String :=
  "org/eclipse/persistence/internal/weaving/PersistenceWeavedChangeTracking"
def wovenFetchGroups : String :=
  "org/eclipse/persistence/internal/weaving/PersistenceWeavedFetchGroups"
def wovenRest : String := "org/eclipse/persistence/internal/weaving/PersistenceWeavedRest"

def persistenceEntity : String :=
  "org/eclipse/persistence/internal/descriptors/PersistenceEntity"
def persistenceObject : String :=
  "org/eclipse/persistence/internal/descriptors/PersistenceObject"
def cacheKey : String := "org/eclipse/persistence/internal/identitymaps/CacheKey"

def holderInterface : String :=
  "org/eclipse/persistence/indirection/WeavedAttributeValueHolderInterface"
def holderInterfaceDesc : String :=
  "Lorg/eclipse/persistence/indirection/WeavedAttributeValueHolderInterface;"
def valueHolder : String := "org/eclipse/persistence/indirection/ValueHolder"

def changeTracker : String :=
  "org/eclipse/persistence/descriptors/changetracking/ChangeTracker"
def listener : String := "java/beans/PropertyChangeListener"
def changeEvent : String := "java/beans/PropertyChangeEvent"

def fetchGroupTracker : String := "org/eclipse/persistence/queries/FetchGroupTracker"
def fetchGroup : String := "org/eclipse/persistence/queries/FetchGroup"
def session : String := "org/eclipse/persistence/sessions/Session"
def entityManager : String := "org/eclipse/persistence/internal/jpa/EntityManagerImpl"

def list : String := "java/util/List"
def link : String := "org/eclipse/persistence/internal/jpa/rs/metadata/model/Link"
def itemLinks : String := "org/eclipse/persistence/internal/jpa/rs/metadata/model/ItemLinks"

def mappingTransient : String := "Ljakarta/persistence/Transient;"
def xmlTransient : String := "Ljavax/xml/bind/annotation/XmlTransient;"

/-- The class whose presence decides whether fields are hidden from XML binding. -/
def xmlTransientClass : String := "javax/xml/bind/annotation/XmlTransient"

/-! ## Descriptors of methods -/

def noArgs : String := "()V"
def objectGetter : String := "()Ljava/lang/Object;"
def flagGetter : String := "()Z"
def keyedGetter : String := "(Ljava/lang/String;)Ljava/lang/Object;"
def keyedSetter : String := "(Ljava/lang/String;Ljava/lang/Object;)Ljava/lang/Object;"
def genericSetDesc : String := "(Ljava/lang/String;Ljava/lang/Object;)V"
def stringTest : String := "(Ljava/lang/String;)Z"
def stringConsumer : String := "(Ljava/lang/String;)V"
def objectConsumer : String := "(Ljava/lang/Object;)V"
def propertyChangeDesc : String := "(Ljava/lang/String;Ljava/lang/Object;Ljava/lang/Object;)V"
def changeEventConstructor : String :=
  "(Ljava/lang/Object;Ljava/lang/String;Ljava/lang/Object;Ljava/lang/Object;)V"
def changeEventConsumer : String := "(Ljava/beans/PropertyChangeEvent;)V"
def unfetchedCallback : String :=
  "(Lorg/eclipse/persistence/queries/FetchGroupTracker;Ljava/lang/String;)V"
def factoryDesc : String :=
  "(Lorg/eclipse/persistence/internal/descriptors/PersistenceObject;)Ljava/lang/Object;"
def tokenConstructor : String :=
  "(Lorg/eclipse/persistence/internal/descriptors/PersistenceObject;)V"

/-- The descriptor of a method that answers a value of a type. -/
def getterOf (descriptor : String) : String := "()" ++ descriptor

/-- The descriptor of a method that takes a value of a type. -/
def setterOf (descriptor : String) : String := "(" ++ descriptor ++ ")V"

/-! ## Members of a class -/

def constructor : String := "<init>"
def staticInitializer : String := "<clinit>"

def postClone : String := "_persistence_post_clone"
def shallowClone : String := "_persistence_shallow_clone"
def factory : String := "_persistence_new"
def genericGet : String := "_persistence_get"
def genericSet : String := "_persistence_set"
def propertyChange : String := "_persistence_propertyChange"
def checkFetched : String := "_persistence_checkFetched"
def checkFetchedForSet : String := "_persistence_checkFetchedForSet"
def isAttributeFetched : String := "_persistence_isAttributeFetched"

/-! ## Members of an attribute -/

/-- The field that holds the lazy value of an attribute. -/
def holderField (attr : String) : String := "_persistence_" ++ attr ++ "_vh"

/-- The method that makes sure that an attribute has a holder. -/
def holderInitializer (attr : String) : String := "_persistence_initialize_" ++ attr ++ "_vh"

/-- The method that answers the holder of an attribute. -/
def holderGetter (attr : String) : String := "_persistence_get_" ++ attr ++ "_vh"

/-- The method that installs a holder for an attribute. -/
def holderSetter (attr : String) : String := "_persistence_set_" ++ attr ++ "_vh"

/-- The method through which the field of an attribute is read. -/
def fieldGetter (attr : String) : String := "_persistence_get_" ++ attr

/-- The method through which the field of an attribute is written. -/
def fieldSetter (attr : String) : String := "_persistence_set_" ++ attr

/-- The descriptor of the method that boxes a value of a type. -/
def boxingDesc (type : Descriptor) (wrapper : String) : String :=
  "(" ++ type.text ++ ")L" ++ wrapper ++ ";"

end EntityLoom.Names
